import Mathlib
import PetaBricks.EventualProofs

/-! # Socket networks — sequential programs that talk over connections

    Processes connect to each other and send messages over their connections.  The
    messages of a connection are read in the order of sending; a process that accepts
    gets one of the connections made to it, in any order.  Reading and accepting wait.

    What a step of a process can do depends on its own node only, and the others only
    add to that node: steps of different processes commute (`commuting`).  So a program
    that does not accept can be run on before anything else happens (`Exec.leads`), and
    a program is proved with the rules of `Does`, which are those of Hoare logic, while
    the other processes run by. -/

namespace PbSocketNet

open PbTransition PbEventual

variable {P A M R R' R'' : Type}

/-- A connection, named after its ends. -/
structure Conn (P : Type) where
  client : P
  server : P
  number : Nat
  deriving DecidableEq, Repr

/-- What a process does next. -/
inductive Prog (P A M R : Type) where
  | done (r : R)
  | fail
  | send (c : Conn P) (m : M) (next : Prog P A M R)
  | recv (c : Conn P) (next : M → Prog P A M R)
  | connect (a : A) (next : Conn P → Prog P A M R)
  | accept (next : Conn P → Prog P A M R)

namespace Prog

def bind : Prog P A M R → (R → Prog P A M R') → Prog P A M R'
  | .done r, k => k r
  | .fail, _ => .fail
  | .send c m next, k => .send c m (next.bind k)
  | .recv c next, k => .recv c (fun m => (next m).bind k)
  | .connect a next, k => .connect a (fun c => (next c).bind k)
  | .accept next, k => .accept (fun c => (next c).bind k)

instance : Monad (Prog P A M) where
  pure := .done
  bind := .bind

/-- `for (i = 0; i < n; ++i)`. -/
def loop (n : Nat) (r : R) (f : R → Nat → Prog P A M R) : Prog P A M R :=
  match n with
  | 0 => .done r
  | n + 1 => (loop n r f).bind (fun r' => f r' n)

variable (k : R → Prog P A M R')

@[simp] theorem pure_eq (r : R) : (pure r : Prog P A M R) = .done r := rfl
@[simp] theorem bind_eq (x : Prog P A M R) : (x >>= k) = x.bind k := rfl
@[simp] theorem bind_done (r : R) : (done r : Prog P A M R).bind k = k r := rfl
@[simp] theorem bind_fail : (fail : Prog P A M R).bind k = fail := rfl
@[simp] theorem bind_send (c : Conn P) (m : M) (next : Prog P A M R) :
    (send c m next).bind k = send c m (next.bind k) := rfl
@[simp] theorem bind_recv (c : Conn P) (next : M → Prog P A M R) :
    (recv c next).bind k = recv c (fun m => (next m).bind k) := rfl
@[simp] theorem bind_connect (a : A) (next : Conn P → Prog P A M R) :
    (connect a next).bind k = connect a (fun c => (next c).bind k) := rfl
@[simp] theorem bind_accept (next : Conn P → Prog P A M R) :
    (accept next).bind k = accept (fun c => (next c).bind k) := rfl

@[simp] theorem bind_assoc (x : Prog P A M R) (k' : R' → Prog P A M R'') :
    (x.bind k).bind k' = x.bind (fun r => (k r).bind k') := by
  induction x with
  | done r => rfl
  | fail => rfl
  | send c m next ih => simp [ih]
  | recv c next ih => simp [ih]
  | connect a next ih => simp [ih]
  | accept next ih => simp [ih]

@[simp] theorem bind_pure (x : Prog P A M R) : x.bind .done = x := by
  induction x with
  | done r => rfl
  | fail => rfl
  | send c m next ih => simp [ih]
  | recv c next ih => simp [ih]
  | connect a next ih => simp [ih]
  | accept next ih => simp [ih]

/-- The process waits for a connection. -/
def accepts : Prog P A M R → Bool
  | .accept _ => true
  | _ => false

end Prog

/-! ## Nodes -/

/-- What a process can use on its own: the number of its next connection and the
    messages it has not read. -/
structure Mem (P M : Type) where
  number : Nat
  inbox : Conn P → List M

/-- A process, with the connections made to it that it has not accepted. -/
structure Node (P A M R : Type) where
  prog : Prog P A M R
  mem : Mem P M
  backlog : Multiset (Conn P)

/-- What one process does to another. -/
inductive Delivery (P M : Type) where
  | message (c : Conn P) (m : M)
  | call (c : Conn P)

variable [DecidableEq P]

/-- The other end of a connection. -/
def Conn.peer (c : Conn P) (self : P) : Option P :=
  if c.client = self then some c.server
  else if c.server = self then some c.client
  else none

def Mem.read (m : Mem P M) (c : Conn P) (rest : List M) : Mem P M :=
  { m with inbox := Function.update m.inbox c rest }

def Mem.write (m : Mem P M) (c : Conn P) (x : M) : Mem P M :=
  { m with inbox := Function.update m.inbox c (m.inbox c ++ [x]) }

namespace Node

def deliver (n : Node P A M R) : Delivery P M → Node P A M R
  | .message c x => { n with mem := n.mem.write c x }
  | .call c => { n with backlog := c ::ₘ n.backlog }

/-- The next instruction of a process, other than accepting. -/
def instr (resolve : A → Option P) (self : P) (n : Node P A M R) :
    Option (Node P A M R × Option (P × Delivery P M)) :=
  match n.prog with
  | .send c x next =>
      (c.peer self).map fun q => ({ n with prog := next }, some (q, .message c x))
  | .recv c next =>
      match n.mem.inbox c with
      | [] => none
      | x :: rest => some ({ n with prog := next x, mem := n.mem.read c rest }, none)
  | .connect a next =>
      match resolve a with
      | none => some ({ n with prog := .fail }, none)
      | some q =>
          let c : Conn P := ⟨self, q, n.mem.number⟩
          some ({ n with prog := next c, mem := { n.mem with number := n.mem.number + 1 } },
            some (q, .call c))
  | _ => none

/-- The acceptance of a connection. -/
def take (n : Node P A M R) (c : Conn P) : Option (Node P A M R) :=
  match n.prog with
  | .accept next =>
      if c ∈ n.backlog then
        some { n with prog := next c, backlog := n.backlog.erase c }
      else none
  | _ => none

/-- A step of a process. -/
def step (resolve : A → Option P) (self : P) (n : Node P A M R) :
    Option (Conn P) → Option (Node P A M R × Option (P × Delivery P M))
  | none => n.instr resolve self
  | some c => (n.take c).map fun n' => (n', none)

end Node

/-- The processes of a network. -/
abbrev Net (P A M R : Type) := P → Node P A M R

/-- Deliver to one process. -/
def Net.deliver (s : Net P A M R) : Option (P × Delivery P M) → Net P A M R
  | none => s
  | some (q, d) => Function.update s q ((s q).deliver d)

/-- A step of a process, and the connection it accepts. -/
abbrev Act (P : Type) := P × Option (Conn P)

def next (resolve : A → Option P) (s : Net P A M R) (a : Act P) : Option (Net P A M R) :=
  ((s a.1).step resolve a.1 a.2).map fun nd => Net.deliver (Function.update s a.1 nd.1) nd.2

/-- The network that starts as given. -/
def network (resolve : A → Option P) (start : Net P A M R) : System (Net P A M R) (Act P) where
  init := fun s => s = start
  next := next resolve

/-! ## Steps of different processes commute -/

variable {resolve : A → Option P} {start s t u : Net P A M R} {self p q : P}
  {n n' : Node P A M R} {d d' : Delivery P M} {o o' : Option (P × Delivery P M)}

@[simp] theorem Node.deliver_prog : (n.deliver d).prog = n.prog := by
  cases d with
  | message c x => rfl
  | call c => rfl

/-- What is delivered to a process does not change what its step does. -/
theorem Node.instr_deliver (h : n.instr resolve self = some (n', o)) :
    (n.deliver d).instr resolve self = some (n'.deliver d, o) := by
  unfold Node.instr at h ⊢
  rw [Node.deliver_prog]
  split at h
  · next c x next hp =>
      rw [Option.map_eq_some_iff] at h ⊢
      obtain ⟨r, hr, heq⟩ := h
      cases heq
      refine ⟨r, hr, ?_⟩
      cases d with
      | message c' x' => rfl
      | call c' => rfl
  · next c next hp =>
      split at h
      · cases h
      · next x rest hin =>
          cases h
          cases d with
          | call c' =>
              simp only [Node.deliver, hin]
          | message c' x' =>
              by_cases hc : c = c'
              · subst hc
                simp only [Node.deliver, Mem.write, Mem.read, Function.update_self, hin,
                  List.cons_append, Function.update_idem]
              · simp only [Node.deliver, Mem.write, Mem.read, Function.update_of_ne hc, hin,
                  Function.update_of_ne (Ne.symm hc), Function.update_comm hc]
  · next a next hp =>
      split at h
      · next hr =>
          cases h
          cases d with
          | message c' x' => rfl
          | call c' => rfl
      · next q hr =>
          cases h
          cases d with
          | message c' x' => rfl
          | call c' => rfl
  · cases h

theorem Node.take_deliver {c : Conn P} (h : n.take c = some n') :
    (n.deliver d).take c = some (n'.deliver d) := by
  unfold Node.take at h ⊢
  rw [Node.deliver_prog]
  split at h
  · next next hp =>
      split at h
      · next hc =>
          cases h
          cases d with
          | message c' x' => exact if_pos hc
          | call c' =>
              refine (if_pos (Multiset.mem_cons_of_mem hc)).trans ?_
              congr 2
              show (c' ::ₘ n.backlog).erase c = c' ::ₘ n.backlog.erase c
              exact Multiset.erase_cons_tail_of_mem hc
      · cases h
  · cases h

theorem Node.step_deliver {a : Option (Conn P)} (h : n.step resolve self a = some (n', o)) :
    (n.deliver d).step resolve self a = some (n'.deliver d, o) := by
  cases a with
  | none => exact Node.instr_deliver h
  | some c =>
      obtain ⟨m, hm, heq⟩ := Option.map_eq_some_iff.mp h
      cases heq
      show ((n.deliver d).take c).map _ = _
      rw [Node.take_deliver hm]
      rfl

/-- What a step of another process adds to a node. -/
def Node.add (self : P) (n : Node P A M R) : Option (P × Delivery P M) → Node P A M R
  | none => n
  | some (q, d) => if q = self then n.deliver d else n

theorem Net.deliver_apply (s : Net P A M R) (o : Option (P × Delivery P M)) (r : P) :
    s.deliver o r = (s r).add r o := by
  cases o with
  | none => rfl
  | some qd =>
      obtain ⟨q, d⟩ := qd
      by_cases hq : r = q
      · subst hq
        simp [Net.deliver, Node.add]
      · simp [Net.deliver, Node.add, hq, Ne.symm hq]

theorem Node.step_add {a : Option (Conn P)} (h : n.step resolve self a = some (n', o)) :
    (n.add self o').step resolve self a = some (n'.add self o', o) := by
  cases o' with
  | none => exact h
  | some qd =>
      obtain ⟨q, d⟩ := qd
      by_cases hq : q = self
      · simpa only [Node.add, if_pos hq] using Node.step_deliver h
      · simpa only [Node.add, if_neg hq] using h

/-- A process writes to its own connections only. -/
def Sends (self : P) (o : Option (P × Delivery P M)) : Prop :=
  ∀ q c x, o = some (q, .message c x) → c.peer self = some q

theorem Node.step_sends {a : Option (Conn P)} (h : n.step resolve self a = some (n', o)) :
    Sends self o := by
  intro q c x ho
  subst ho
  cases a with
  | some c' =>
      obtain ⟨m, -, heq⟩ := Option.map_eq_some_iff.mp h
      cases heq
  | none =>
      have hi : n.instr resolve self = some (n', some (q, .message c x)) := h
      unfold Node.instr at hi
      split at hi
      · obtain ⟨r, hr, heq⟩ := Option.map_eq_some_iff.mp hi
        cases heq
        exact hr
      · split at hi <;> cases hi
      · split at hi <;> cases hi
      · cases hi

/-- Nobody else writes to the same end of a connection. -/
theorem Conn.peer_inj {c : Conn P} {r : P} (hp : c.peer p = some r) (hq : c.peer q = some r) :
    p = q := by
  unfold Conn.peer at hp hq
  by_cases h1 : c.client = p
  · by_cases h2 : c.client = q
    · exact h1.symm.trans h2
    · simp_all
  · by_cases h2 : c.client = q
    · simp_all
    · simp_all

theorem Node.add_comm (hpq : p ≠ q) (hp : Sends p o) (hq : Sends q o') (n : Node P A M R)
    (r : P) : (n.add r o).add r o' = (n.add r o').add r o := by
  cases o with
  | none => rfl
  | some xd =>
      cases o' with
      | none => rfl
      | some yd =>
          obtain ⟨x, d⟩ := xd
          obtain ⟨y, d'⟩ := yd
          by_cases hx : x = r
          · by_cases hy : y = r
            · subst hx hy
              simp only [Node.add]
              cases d with
              | call c =>
                  cases d' with
                  | call c' => simp [Node.deliver, Multiset.cons_swap]
                  | message c' m' => rfl
              | message c m =>
                  cases d' with
                  | call c' => rfl
                  | message c' m' =>
                      have hc : c ≠ c' := by
                        intro h
                        subst h
                        exact hpq (Conn.peer_inj (hp _ _ _ rfl) (hq _ _ _ rfl))
                      simp [Node.deliver, Mem.write, hc, Ne.symm hc, Function.update_comm hc]
            · simp only [Node.add, if_neg hy]
          · simp only [Node.add, if_neg hx]

theorem next_eq_some {a : Act P} (h : next resolve s a = some t) :
    ∃ n o, (s a.1).step resolve a.1 a.2 = some (n, o) ∧
      t = Net.deliver (Function.update s a.1 n) o := by
  obtain ⟨⟨n, o⟩, hn, heq⟩ := Option.map_eq_some_iff.mp h
  exact ⟨n, o, hn, heq.symm⟩

theorem next_of_step {a : Act P} (h : (s a.1).step resolve a.1 a.2 = some (n, o)) :
    next resolve s a = some (Net.deliver (Function.update s a.1 n) o) := by
  rw [next, h]
  rfl

theorem next_diamond {a b : Act P} (hab : a.1 ≠ b.1) (ha : next resolve s a = some t)
    (hb : next resolve s b = some u) :
    ∃ v, next resolve t b = some v ∧ next resolve u a = some v := by
  obtain ⟨n, o, hn, rfl⟩ := next_eq_some ha
  obtain ⟨n', o', hn', rfl⟩ := next_eq_some hb
  have hta : Net.deliver (Function.update s a.1 n) o b.1 = (s b.1).add b.1 o := by
    rw [Net.deliver_apply, Function.update_of_ne (Ne.symm hab)]
  have hub : Net.deliver (Function.update s b.1 n') o' a.1 = (s a.1).add a.1 o' := by
    rw [Net.deliver_apply, Function.update_of_ne hab]
  refine ⟨_, next_of_step (by rw [hta]; exact Node.step_add hn'), ?_⟩
  refine (next_of_step (by rw [hub]; exact Node.step_add hn)).trans (congrArg some ?_)
  have hs := Node.step_sends hn
  have hs' := Node.step_sends hn'
  funext r
  rw [Net.deliver_apply, Net.deliver_apply]
  by_cases hra : r = a.1
  · subst hra
    rw [Function.update_self, Function.update_of_ne hab, Net.deliver_apply,
      Function.update_self]
    exact Node.add_comm (Ne.symm hab) hs' hs n a.1
  · by_cases hrb : r = b.1
    · subst hrb
      rw [Function.update_self, Function.update_of_ne hra, Net.deliver_apply,
        Function.update_self]
      exact Node.add_comm (Ne.symm hab) hs' hs n' b.1
    · rw [Function.update_of_ne hra, Function.update_of_ne hrb, Net.deliver_apply,
        Net.deliver_apply, Function.update_of_ne hra, Function.update_of_ne hrb]
      exact Node.add_comm (Ne.symm hab) hs' hs (s r) r

/-- A process that does not accept has its next instruction only. -/
def Only (s : Net P A M R) (a : Act P) : Prop := a.2 = none ∧ (s a.1).prog.accepts = false

/-- **STEPS OF DIFFERENT PROCESSES COMMUTE.** -/
theorem commuting (resolve : A → Option P) (start : Net P A M R) :
    Commuting (network resolve start) Prod.fst Only where
  diamond := next_diamond
  only := by
    intro s t a b ho hab hb
    obtain ⟨n, o, hn, -⟩ := next_eq_some hb
    obtain ⟨p, c⟩ := b
    obtain ⟨q, c'⟩ := a
    obtain rfl : p = q := hab
    obtain rfl : c' = none := ho.1
    cases c with
    | none => rfl
    | some c =>
        obtain ⟨m, hm, -⟩ := Option.map_eq_some_iff.mp hn
        have hacc : (s p).prog.accepts = false := ho.2
        unfold Node.take at hm
        split at hm
        · next next hp =>
            rw [hp] at hacc
            cases hacc
        · cases hm
  keep := by
    intro s t a b ho hab hb
    obtain ⟨n, o, -, rfl⟩ := next_eq_some hb
    refine ⟨ho.1, ?_⟩
    rw [Net.deliver_apply, Function.update_of_ne (Ne.symm hab)]
    cases o with
    | none => exact ho.2
    | some qd =>
        rw [Node.add]
        split
        · rw [Node.deliver_prog]
          exact ho.2
        · exact ho.2

/-! ## Running a program on -/

/-- A program runs to its end without accepting or waiting: what it does to the others,
    in order, and what it leaves. -/
inductive Exec (resolve : A → Option P) (self : P) :
    Prog P A M R → Mem P M → List (P × Delivery P M) → R → Mem P M → Prop where
  | done (r : R) (m : Mem P M) : Exec resolve self (.done r) m [] r m
  | send {c : Conn P} {x : M} {next : Prog P A M R} {m m' : Mem P M} {q : P}
      {out : List (P × Delivery P M)} {r : R} (hq : c.peer self = some q)
      (he : Exec resolve self next m out r m') :
      Exec resolve self (.send c x next) m ((q, .message c x) :: out) r m'
  | recv {c : Conn P} {next : M → Prog P A M R} {m m' : Mem P M} {x : M} {rest : List M}
      {out : List (P × Delivery P M)} {r : R} (hin : m.inbox c = x :: rest)
      (he : Exec resolve self (next x) (m.read c rest) out r m') :
      Exec resolve self (.recv c next) m out r m'
  | connect {a : A} {next : Conn P → Prog P A M R} {m m' : Mem P M} {q : P}
      {out : List (P × Delivery P M)} {r : R} (hq : resolve a = some q)
      (he : Exec resolve self (next ⟨self, q, m.number⟩) { m with number := m.number + 1 }
        out r m') :
      Exec resolve self (.connect a next) m ((q, .call ⟨self, q, m.number⟩) :: out) r m'

theorem Exec.bind {x : Prog P A M R} {f : R → Prog P A M R'} {m m' m'' : Mem P M}
    {out out' : List (P × Delivery P M)} {r : R} {r' : R'}
    (hx : Exec resolve self x m out r m') (hf : Exec resolve self (f r) m' out' r' m'') :
    Exec resolve self (x.bind f) m (out ++ out') r' m'' := by
  induction hx with
  | done r m => exact hf
  | send hq he ih => exact .send hq (ih hf)
  | recv hin he ih => exact .recv hin (ih hf)
  | connect hq he ih => exact .connect hq (ih hf)

/-- After a part that does nothing to the others. -/
theorem Exec.seq {x : Prog P A M R} {f : R → Prog P A M R'} {m m' m'' : Mem P M}
    {out : List (P × Delivery P M)} {r : R} {r' : R'} (hx : Exec resolve self x m [] r m')
    (hf : Exec resolve self (f r) m' out r' m'') : Exec resolve self (x.bind f) m out r' m'' :=
  hx.bind hf

/-- A loop, by what its iterations do. -/
theorem Exec.loop {f : R → Nat → Prog P A M R} (r : Nat → R) (m : Nat → Mem P M)
    (out : Nat → List (P × Delivery P M)) (n : Nat)
    (h : ∀ i < n, Exec resolve self (f (r i) i) (m i) (out i) (r (i + 1)) (m (i + 1))) :
    Exec resolve self (Prog.loop n (r 0) f) (m 0) ((List.range n).flatMap out) (r n) (m n) := by
  induction n with
  | zero => exact .done (r 0) (m 0)
  | succ n ih =>
      rw [List.range_succ, List.flatMap_append, List.flatMap_singleton]
      exact (ih (fun i hi => h i (Nat.lt_succ_of_lt hi))).bind (h n (Nat.lt_succ_self n))

/-- A loop that does nothing to the others. -/
theorem Exec.loop_silent {f : R → Nat → Prog P A M R} (r : Nat → R) (m : Nat → Mem P M)
    (n : Nat) (h : ∀ i < n, Exec resolve self (f (r i) i) (m i) [] (r (i + 1)) (m (i + 1))) :
    Exec resolve self (Prog.loop n (r 0) f) (m 0) [] (r n) (m n) := by
  have hl := Exec.loop r m (fun _ => []) n h
  rwa [List.flatMap_eq_nil_iff.mpr (fun _ _ => rfl)] at hl

/-- Deliver one after the other. -/
def Node.addAll (self : P) (n : Node P A M R) (out : List (P × Delivery P M)) : Node P A M R :=
  out.foldl (fun n d => n.add self (some d)) n

/-- The network after a process has run on. -/
def Net.after (s : Net P A M R) (p : P) (n : Node P A M R) (out : List (P × Delivery P M)) :
    Net P A M R :=
  fun r => if r = p then n else (s r).addAll r out

@[simp] theorem Net.after_self (s : Net P A M R) (out : List (P × Delivery P M)) :
    s.after p n out p = n := if_pos rfl

theorem Net.after_of_ne (s : Net P A M R) (out : List (P × Delivery P M)) {r : P} (h : r ≠ p) :
    s.after p n out r = (s r).addAll r out := if_neg h

theorem Net.after_after (s : Net P A M R) (out out' : List (P × Delivery P M)) :
    (s.after p n out).after p n' out' = s.after p n' (out ++ out') := by
  funext r
  by_cases hr : r = p
  · subst hr
    rw [Net.after_self, Net.after_self]
  · rw [Net.after_of_ne _ _ hr, Net.after_of_ne _ _ hr, Net.after_of_ne _ _ hr,
      Node.addAll, Node.addAll, Node.addAll, List.foldl_append]

/-- One instruction may be taken before anything else happens. -/
theorem instr_leads {out : List (P × Delivery P M)} (hs : (s p).instr resolve p = some (n', o))
    (ho : o.toList = out) (hout : ∀ d ∈ out, d.1 ≠ p) :
    Leads (network resolve start) s (fun u => u = s.after p n' out) := by
  subst ho
  have hacc : (s p).prog.accepts = false := by
    unfold Node.instr at hs
    split at hs
    · next hp => rw [hp]; rfl
    · next hp => rw [hp]; rfl
    · next hp => rw [hp]; rfl
    · cases hs
  refine ((commuting resolve start).leads (a := (p, none)) ⟨rfl, hacc⟩
    (next_of_step hs)).mono ?_
  rintro u rfl
  funext r
  rw [Net.deliver_apply]
  by_cases hr : r = p
  · subst hr
    rw [Function.update_self, Net.after_self]
    cases o with
    | none => rfl
    | some d => exact if_neg (hout d (List.mem_singleton_self d))
  · rw [Function.update_of_ne hr, Net.after_of_ne _ _ hr]
    cases o with
    | none => rfl
    | some d => rfl

/-- **RUNNING ON**: a program that neither accepts nor waits may be run to its end before
    anything else happens. -/
theorem Exec.leads {x : Prog P A M R'} {m m' : Mem P M} {out : List (P × Delivery P M)}
    {r : R'} (he : Exec resolve p x m out r m') (hout : ∀ d ∈ out, d.1 ≠ p)
    {k : R' → Prog P A M R} {b : Multiset (Conn P)} {s : Net P A M R}
    (hs : s p = ⟨x.bind k, m, b⟩) :
    Leads (network resolve start) s (fun u => u = s.after p ⟨k r, m', b⟩ out) := by
  induction he generalizing s with
  | done r m =>
      refine .refl ?_
      funext q
      by_cases hq : q = p
      · subst hq
        rw [Net.after_self]
        exact hs
      · rw [Net.after_of_ne s [] hq]
        rfl
  | @send c x next m m' q out r hq he ih =>
      have hfirst : (s p).instr resolve p =
          some (⟨next.bind k, m, b⟩, some (q, .message c x)) := by
        rw [hs]
        show (c.peer p).map _ = _
        rw [hq]
        rfl
      refine (instr_leads hfirst rfl (fun d hd => hout d ?_)).trans ?_
      · exact List.mem_cons.mpr (.inl (List.mem_singleton.mp hd))
      · rintro u rfl
        refine (ih (fun d hd => hout d (List.mem_cons_of_mem _ hd)) (Net.after_self _ _)).mono ?_
        rintro u rfl
        rw [Net.after_after]
        rfl
  | @recv c next m m' x rest out r hin he ih =>
      have hfirst : (s p).instr resolve p =
          some (⟨(next x).bind k, m.read c rest, b⟩, none) := by
        rw [hs]
        simp only [Node.instr, Prog.bind_recv, hin]
      refine (instr_leads hfirst rfl (fun d hd => nomatch hd)).trans ?_
      rintro u rfl
      refine (ih hout (Net.after_self _ _)).mono ?_
      rintro u rfl
      rw [Net.after_after]
      rfl
  | @connect a next m m' q out r hq he ih =>
      have hfirst : (s p).instr resolve p =
          some (⟨(next ⟨p, q, m.number⟩).bind k, { m with number := m.number + 1 }, b⟩,
            some (q, .call ⟨p, q, m.number⟩)) := by
        rw [hs]
        simp only [Node.instr, Prog.bind_connect, hq]
      refine (instr_leads hfirst rfl (fun d hd => hout d ?_)).trans ?_
      · exact List.mem_cons.mpr (.inl (List.mem_singleton.mp hd))
      · rintro u rfl
        refine (ih (fun d hd => hout d (List.mem_cons_of_mem _ hd)) (Net.after_self _ _)).mono ?_
        rintro u rfl
        rw [Net.after_after]
        rfl

/-! ## Accepting -/

/-- A process that waits, or has ended. -/
def Node.Blocked (resolve : A → Option P) (self : P) (n : Node P A M R) : Prop :=
  ∀ a, n.step resolve self a = none

theorem Node.blocked_done {r : R} (m : Mem P M) (b : Multiset (Conn P)) :
    (⟨.done r, m, b⟩ : Node P A M R).Blocked resolve self := by
  intro a
  cases a with
  | none => rfl
  | some c => rfl

theorem Node.blocked_recv {c : Conn P} {next : M → Prog P A M R} {m : Mem P M}
    (h : m.inbox c = []) (b : Multiset (Conn P)) :
    (⟨.recv c next, m, b⟩ : Node P A M R).Blocked resolve self := by
  intro a
  cases a with
  | none => simp only [Node.step, Node.instr, h]
  | some c => rfl

/-- Where everybody waits, nothing happens any more. -/
theorem next_blocked (h : ∀ p, (s p).Blocked resolve p) (a : Act P) :
    (network resolve start).next s a = none := by
  show ((s a.1).step resolve a.1 a.2).map _ = none
  rw [h a.1 a.2]
  rfl

/-- Where the others wait, a process with a connection to accept accepts one. -/
theorem accept_leads {f : Conn P → Prog P A M R} {m : Mem P M} {b : Multiset (Conn P)}
    (hs : s p = ⟨.accept f, m, b⟩) (hb : b ≠ 0)
    (hothers : ∀ q, q ≠ p → (s q).Blocked resolve q) :
    Leads (network resolve start) s
      (fun u => ∃ c ∈ b, u p = ⟨f c, m, b.erase c⟩ ∧ ∀ q, q ≠ p → u q = s q) := by
  obtain ⟨c, hc⟩ := Multiset.exists_mem_of_ne_zero hb
  have htake : ∀ c ∈ b, (s p).step resolve p (some c) =
      some (⟨f c, m, b.erase c⟩, none) := by
    intro c hc
    rw [hs]
    simp only [Node.step, Node.take, if_pos hc, Option.map_some]
  refine (Leads.step (next_of_step (a := (p, some c)) (htake c hc))).mono ?_
  rintro u ⟨⟨q, a⟩, hn⟩
  obtain ⟨n, o, hstep, rfl⟩ := next_eq_some hn
  have hqp : q = p := by
    by_contra hne
    rw [hothers q hne a] at hstep
    cases hstep
  subst hqp
  cases a with
  | none =>
      simp only [hs, Node.step, Node.instr] at hstep
      cases hstep
  | some c' =>
      by_cases hc' : c' ∈ b
      · rw [htake c' hc'] at hstep
        cases hstep
        refine ⟨c', hc', ?_, fun r hr => ?_⟩
        · exact Function.update_self _ _ _
        · exact Function.update_of_ne hr _ _
      · simp only [hs, Node.step, Node.take, if_neg hc'] at hstep
        cases hstep

/-- What a loop that accepts makes of the connections. -/
def gather (f : R' → Nat → Conn P → R') (r : R') (l : List (Conn P)) : R' :=
  l.zipIdx.foldl (fun r ci => f r ci.2 ci.1) r

omit [DecidableEq P] in
theorem gather_append (f : R' → Nat → Conn P → R') (r : R') (l : List (Conn P)) (c : Conn P) :
    gather f r (l ++ [c]) = f (gather f r l) l.length c := by
  rw [gather, List.zipIdx_append, List.foldl_append]
  simp [gather]

theorem accept_some_leads {f : R' → Nat → Conn P → R'} {r : R'} {m : Mem P M}
    {b : Multiset (Conn P)} (n : Nat) (hb : n ≤ b.card) {k : R' → Prog P A M R}
    (hs : s p = ⟨(Prog.loop n r (fun r i => .accept fun c => .done (f r i c))).bind k, m, b⟩)
    (hothers : ∀ q, q ≠ p → (s q).Blocked resolve q) :
    Leads (network resolve start) s
      (fun u => ∃ (l : List (Conn P)) (rest : Multiset (Conn P)), l.length = n ∧
        (l : Multiset (Conn P)) + rest = b ∧ u p = ⟨k (gather f r l), m, rest⟩ ∧
        ∀ q, q ≠ p → u q = s q) := by
  induction n generalizing k with
  | zero => exact .refl ⟨[], b, rfl, zero_add b, hs, fun q _ => rfl⟩
  | succ n ih =>
      rw [Prog.loop, Prog.bind_assoc] at hs
      refine (ih (Nat.le_of_succ_le hb) hs).trans ?_
      rintro u ⟨l, rest, hl, hlb, hu, huq⟩
      have hcard : rest.card = b.card - n := by
        rw [← hlb, Multiset.card_add, Multiset.coe_card, hl, Nat.add_sub_cancel_left]
      have hne : rest ≠ 0 := by
        rw [ne_eq, ← Multiset.card_eq_zero, hcard]
        omega
      refine (accept_leads hu hne (fun q hq => ?_)).mono ?_
      · rw [huq q hq]
        exact hothers q hq
      · rintro v ⟨c, hc, hv, hvq⟩
        refine ⟨l ++ [c], rest.erase c, by simp [hl], ?_, ?_, fun q hq => ?_⟩
        · rw [← hlb, ← Multiset.coe_add, add_assoc, Multiset.coe_singleton,
            Multiset.singleton_add, Multiset.cons_erase hc]
        · rw [gather_append, hl]
          exact hv
        · exact (hvq q hq).trans (huq q hq)

/-- Where the others wait, a process accepts all connections made to it, in any order. -/
theorem accept_all_leads {f : R' → Nat → Conn P → R'} {r : R'} {m : Mem P M}
    {b : Multiset (Conn P)} {n : Nat} (hb : b.card = n) {k : R' → Prog P A M R}
    (hs : s p = ⟨(Prog.loop n r (fun r i => .accept fun c => .done (f r i c))).bind k, m, b⟩)
    (hothers : ∀ q, q ≠ p → (s q).Blocked resolve q) :
    Leads (network resolve start) s
      (fun u => ∃ l : List (Conn P), (l : Multiset (Conn P)) = b ∧
        u p = ⟨k (gather f r l), m, 0⟩ ∧ ∀ q, q ≠ p → u q = s q) := by
  refine (accept_some_leads n (Nat.le_of_eq hb.symm) hs hothers).mono ?_
  rintro u ⟨l, rest, hl, hlb, hu, huq⟩
  have hrest : rest = 0 := by
    rw [← Multiset.card_eq_zero]
    have := congrArg Multiset.card hlb
    rw [Multiset.card_add, Multiset.coe_card, hl] at this
    omega
  subst hrest
  exact ⟨l, (add_zero _).symm.trans hlb, hu, huq⟩

/-! ## Messages on their way -/

/-- One message waits on each of some connections. -/
def pending (l : List (Conn P)) (f : Conn P → M) (c : Conn P) : List M :=
  if c ∈ l then [f c] else []

@[simp] theorem pending_nil (f : Conn P → M) : pending [] f = fun _ => [] := by
  funext c
  exact if_neg List.not_mem_nil

theorem pending_of_not_mem {l : List (Conn P)} {c : Conn P} (h : c ∉ l) (f : Conn P → M) :
    pending l f c = [] := if_neg h

theorem pending_perm {l l' : List (Conn P)} (h : ∀ c, c ∈ l ↔ c ∈ l') (f : Conn P → M) :
    pending l f = pending l' f := by
  funext c
  simp only [pending, h c]

theorem pending_head (c : Conn P) (l : List (Conn P)) (f : Conn P → M) :
    pending (c :: l) f c = [f c] := if_pos List.mem_cons_self

theorem pending_read {c : Conn P} {l : List (Conn P)} (h : c ∉ l) (f : Conn P → M) :
    Function.update (pending (c :: l) f) c [] = pending l f := by
  funext d
  by_cases hd : d = c
  · subst hd
    rw [Function.update_self, pending_of_not_mem h]
  · rw [Function.update_of_ne hd]
    simp [pending, hd]

theorem pending_write {c : Conn P} {l : List (Conn P)} (h : c ∉ l) (f : Conn P → M) :
    Function.update (pending l f) c (pending l f c ++ [f c]) = pending (l ++ [c]) f := by
  funext d
  by_cases hd : d = c
  · subst hd
    rw [Function.update_self, pending_of_not_mem h]
    simp [pending]
  · rw [Function.update_of_ne hd]
    simp [pending, hd]

/-- Connections to a process. -/
def calls (q : P) (l : List (Conn P)) : List (P × Delivery P M) := l.map fun c => (q, .call c)

/-- A message to a process on each of some connections. -/
def letters (q : P) (f : Conn P → M) (l : List (Conn P)) : List (P × Delivery P M) :=
  l.map fun c => (q, .message c (f c))

theorem Node.addAll_append (out out' : List (P × Delivery P M)) :
    n.addAll p (out ++ out') = (n.addAll p out).addAll p out' := List.foldl_append

theorem Node.addAll_of_ne {out : List (P × Delivery P M)} (h : ∀ d ∈ out, d.1 ≠ p) :
    n.addAll p out = n := by
  induction out with
  | nil => rfl
  | cons d out ih =>
      show (n.add p (some d)).addAll p out = n
      rw [show n.add p (some d) = n from if_neg (h d List.mem_cons_self)]
      exact ih (fun e he => h e (List.mem_cons_of_mem _ he))

theorem Node.addAll_calls (l : List (Conn P)) :
    n.addAll p (calls p l) = { n with backlog := n.backlog + l } := by
  induction l generalizing n with
  | nil =>
      show n = _
      rw [Multiset.coe_nil, add_zero]
  | cons c l ih =>
      show (n.add p (some (p, .call c))).addAll p (calls p l) = _
      rw [show n.add p (some (p, .call c)) = n.deliver (.call c) from if_pos rfl, ih]
      simp [Node.deliver, ← Multiset.cons_coe]

theorem Node.addAll_letters {f : Conn P → M} {l l' : List (Conn P)}
    (h : n.mem.inbox = pending l f) (hnd : (l ++ l').Nodup) :
    n.addAll p (letters p f l') =
      { n with mem := { n.mem with inbox := pending (l ++ l') f } } := by
  induction l' generalizing n l with
  | nil =>
      show n = _
      rw [List.append_nil, ← h]
  | cons c l' ih =>
      have hc : c ∉ l := fun hin => (List.nodup_append.mp hnd).2.2 c hin c List.mem_cons_self rfl
      show (n.add p (some (p, .message c (f c)))).addAll p (letters p f l') = _
      rw [show n.add p (some (p, .message c (f c))) = n.deliver (.message c (f c)) from
        if_pos rfl, ih (l := l ++ [c])]
      · simp [Node.deliver, Mem.write]
      · show Function.update n.mem.inbox c (n.mem.inbox c ++ [f c]) = _
        rw [h, pending_write hc]
      · rwa [List.append_assoc]

theorem Node.addAll_letters_idle {f : Conn P → M} {l : List (Conn P)}
    (h : n.mem.inbox = fun _ => []) (hnd : l.Nodup) :
    n.addAll p (letters p f l) = { n with mem := { n.mem with inbox := pending l f } } :=
  Node.addAll_letters (l := []) (h.trans (pending_nil f).symm) hnd

/-! ## Programs among others -/

/-- From a state of `I`, the program of a process comes to its end with a result and a
    state of `J`, whatever the others do meanwhile. -/
def Does (resolve : A → Option P) (start : Net P A M R) (p : P) (I : Net P A M R → Prop)
    (x : Prog P A M R') (J : R' → Net P A M R → Prop) : Prop :=
  ∀ (k : R' → Prog P A M R) (s : Net P A M R), I s → (s p).prog = x.bind k →
    Leads (network resolve start) s (fun u => ∃ r, J r u ∧ (u p).prog = k r)

variable {I I' : Net P A M R → Prop} {J J' : R' → Net P A M R → Prop}
  {K : R'' → Net P A M R → Prop}

theorem Does.done {r : R'} (h : ∀ s, I s → J r s) : Does resolve start p I (.done r) J :=
  fun _ s hs hk => .refl ⟨r, h s hs, hk⟩

theorem Does.bind {x : Prog P A M R'} {f : R' → Prog P A M R''}
    (hx : Does resolve start p I x J) (hf : ∀ r, Does resolve start p (J r) (f r) K) :
    Does resolve start p I (x.bind f) K := by
  intro k s hs hk
  rw [Prog.bind_assoc] at hk
  refine (hx _ s hs hk).trans ?_
  rintro u ⟨r, hr, hu⟩
  exact hf r k u hr hu

theorem Does.mono {x : Prog P A M R'} (hx : Does resolve start p I x J)
    (hi : ∀ s, I' s → I s) (hj : ∀ r s, J r s → J' r s) : Does resolve start p I' x J' := by
  intro k s hs hk
  refine (hx k s (hi s hs) hk).mono ?_
  rintro u ⟨r, hr, hu⟩
  exact ⟨r, hj r u hr, hu⟩

/-- **LOOP RULE.** -/
theorem Does.loop {f : R' → Nat → Prog P A M R'} (L : Nat → R' → Net P A M R → Prop) {n : Nat}
    {r : R'} (h : ∀ i < n, ∀ r, Does resolve start p (L i r) (f r i) (L (i + 1))) :
    Does resolve start p (L 0 r) (Prog.loop n r f) (L n) := by
  induction n with
  | zero => exact .done (fun s hs => hs)
  | succ n ih =>
      exact (ih (fun i hi => h i (Nat.lt_succ_of_lt hi))).bind (h n (Nat.lt_succ_self n))

end PbSocketNet
