import Mathlib.Algebra.Group.Nat.Defs
import Mathlib.Algebra.GroupWithZero.Nat
import Mathlib.Data.List.Infix
import Mathlib.Data.Nat.Log
import Mathlib.Order.Nat
import Mathlib.Tactic.Common

/-! # `RemoteTask::remoteScheduleTask` — the host with the most data

    The data arguments of a task push hosts with weights.  The task adds the weights of each host
    in a map of doubles, and keeps the best host so far and its total.  The totals only grow, so
    the best at the end is the best over the list (`best_step`), as long as no sum is rounded. -/

namespace PbRemoteSchedule

structure HostPid where
  hostid : ℤ
  pid : ℤ
  deriving DecidableEq

/-- `weight` is a `size_t`. -/
structure DataHostPidListItem where
  hostPid : HostPid
  weight : ℕ

/-- The double nearest to a number, the even one of two. -/
def toDouble (n : ℕ) : ℕ :=
  let unit := 2 ^ (Nat.log 2 n - 52)
  let q := n / unit
  let r := n % unit
  (if unit < 2 * r ∨ 2 * r = unit ∧ q % 2 = 1 then q + 1 else q) * unit

structure Scan where
  toHostPid : HostPid
  maxWeight : ℕ
  map : HostPid → ℕ

/-- One turn of the loop, `here` is `HostPid::self()`.  The new total is an integral double; it is
    no `size_t` from `2 ^ 64` on. -/
def scan (here : HostPid) (s : Scan) (item : DataHostPidListItem) : Option Scan :=
  let total := toDouble (s.map item.hostPid + toDouble item.weight)
  let map := fun h => if h = item.hostPid then total else s.map h
  if toDouble s.maxWeight < total then
    if total < 2 ^ 64 then some ⟨item.hostPid, total, map⟩ else none
  else if total = toDouble s.maxWeight ∧ item.hostPid = here then
    some ⟨item.hostPid, s.maxWeight, map⟩
  else some ⟨s.toHostPid, s.maxWeight, map⟩

def scanAll (here : HostPid) : Scan → List DataHostPidListItem → Option Scan
  | s, [] => some s
  | s, item :: hosts => (scan here s item).bind fun s => scanAll here s hosts

/-- The host that `remoteScheduleTask` takes. -/
def remoteScheduleTask (here : HostPid) : List DataHostPidListItem → Option HostPid
  | [] => some here
  | [item] => some item.hostPid
  | hosts => (scanAll here ⟨here, 0, fun _ => 0⟩ hosts).map Scan.toHostPid

/-- The weight of a host in the whole list. -/
def total (hosts : List DataHostPidListItem) (h : HostPid) : ℕ :=
  (hosts.map fun item => if item.hostPid = h then item.weight else 0).sum

/-- **THE HEAVIEST HOST**, and the local one if that is as heavy. -/
def Heaviest (here : HostPid) (hosts : List DataHostPidListItem) (h : HostPid) : Prop :=
  (∀ h', total hosts h' ≤ total hosts h) ∧ ((∀ h', total hosts h' ≤ total hosts here) → h = here)

/-- No sum is rounded. -/
structure Exact (hosts : List DataHostPidListItem) : Prop where
  weight : ∀ item ∈ hosts, toDouble item.weight = item.weight
  sum : ∀ seen, seen <+: hosts → ∀ h, toDouble (total seen h) = total seen h
  fits : ∀ h, total hosts h < 2 ^ 64

/-! ## Doubles -/

theorem toDouble_of_le {n : ℕ} (h : n ≤ 2 ^ 53) : toDouble n = n := by
  rcases Nat.lt_or_eq_of_le h with hlt | rfl
  · have hlog : Nat.log 2 n - 52 = 0 := by
      have hlt' := Nat.log_lt_of_lt_pow' (b := 2) (x := 53) (y := n) (by decide) hlt
      omega
    simp [toDouble, hlog, Nat.mod_one]
  · decide

/-! ## The scan -/

section Scan

variable {here : HostPid} {seen hosts : List DataHostPidListItem} {item : DataHostPidListItem}
  {s : Scan}

theorem total_concat (h : HostPid) : total (seen ++ [item]) h =
    total seen h + if item.hostPid = h then item.weight else 0 := by
  rw [total, List.map_append, List.sum_append]
  exact congrArg (total seen h + ·) (Nat.add_zero _)

theorem total_mono (hseen : seen <+: hosts) (h : HostPid) : total seen h ≤ total hosts h := by
  obtain ⟨rest, rfl⟩ := hseen
  rw [total, total, List.map_append, List.sum_append]
  exact Nat.le_add_right _ _

/-- What the loop knows of the items it has seen. -/
structure Best (here : HostPid) (seen : List DataHostPidListItem) (s : Scan) : Prop where
  map : s.map = total seen
  bound : ∀ h, total seen h ≤ s.maxWeight
  attained : total seen s.toHostPid = s.maxWeight
  local_first : total seen here = s.maxWeight → s.toHostPid = here

theorem best_start : Best here [] ⟨here, 0, fun _ => 0⟩ :=
  ⟨rfl, fun _ => le_rfl, rfl, fun _ => rfl⟩

theorem best_step (hexact : Exact hosts) (hseen : seen ++ [item] <+: hosts)
    (h : Best here seen s) : ∃ s', scan here s item = some s' ∧ Best here (seen ++ [item]) s' := by
  have hbefore : seen <+: hosts := (List.prefix_append _ _).trans hseen
  have hweight : toDouble item.weight = item.weight :=
    hexact.weight item (hseen.subset (List.mem_append_right _ (List.mem_singleton_self _)))
  have hmax : toDouble s.maxWeight = s.maxWeight := by
    rw [← h.attained]
    exact hexact.sum seen hbefore _
  have hnew : total (seen ++ [item]) item.hostPid = total seen item.hostPid + item.weight := by
    rw [total_concat, if_pos rfl]
  have hother : ∀ h', item.hostPid ≠ h' → total (seen ++ [item]) h' = total seen h' := by
    intro h' hne
    rw [total_concat, if_neg hne, Nat.add_zero]
  have hsum : toDouble (s.map item.hostPid + toDouble item.weight) =
      total (seen ++ [item]) item.hostPid := by
    rw [hweight, h.map, ← hnew]
    exact hexact.sum _ hseen _
  have hmap : (fun h' => if h' = item.hostPid then total (seen ++ [item]) item.hostPid
      else s.map h') = total (seen ++ [item]) := by
    funext h'
    by_cases heq : h' = item.hostPid
    · rw [if_pos heq, heq]
    · rw [if_neg heq, h.map, hother h' fun hne => heq hne.symm]
  have hfits := (total_mono hseen item.hostPid).trans_lt (hexact.fits item.hostPid)
  rw [scan, hsum, hmax, hmap]
  by_cases hlt : s.maxWeight < total (seen ++ [item]) item.hostPid
  · -- a new best
    rw [if_pos hlt, if_pos hfits]
    refine ⟨_, rfl, rfl, fun h' => ?_, rfl, fun hself => ?_⟩
    · by_cases heq : item.hostPid = h'
      · rw [heq]
      · rw [hother h' heq]
        exact (h.bound h').trans hlt.le
    · by_contra hne
      rw [hother here hne] at hself
      exact absurd (h.bound here) (not_le.mpr (hself ▸ hlt))
  · rw [if_neg hlt]
    have hbound : ∀ h', total (seen ++ [item]) h' ≤ s.maxWeight := by
      intro h'
      by_cases heq : item.hostPid = h'
      · rw [← heq]
        exact not_lt.mp hlt
      · rw [hother h' heq]
        exact h.bound h'
    by_cases htie : total (seen ++ [item]) item.hostPid = s.maxWeight ∧ item.hostPid = here
    · rw [if_pos htie]
      exact ⟨_, rfl, rfl, hbound, htie.1, fun _ => htie.2⟩
    · rw [if_neg htie]
      refine ⟨_, rfl, rfl, hbound, ?_, fun hself => ?_⟩
      · refine le_antisymm (hbound _) ?_
        rw [← h.attained]
        exact total_mono (List.prefix_append _ _) _
      · refine h.local_first ?_
        by_cases heq : item.hostPid = here
        · exact absurd ⟨heq ▸ hself, heq⟩ htie
        · rw [← hother here heq]
          exact hself

theorem best_scanAll (hexact : Exact hosts) {rest : List DataHostPidListItem}
    (hsplit : seen ++ rest = hosts) (h : Best here seen s) :
    ∃ s', scanAll here s rest = some s' ∧ Best here hosts s' := by
  induction rest generalizing seen s with
  | nil =>
      rw [List.append_nil] at hsplit
      exact ⟨s, rfl, hsplit ▸ h⟩
  | cons item rest ih =>
      have hsplit' : (seen ++ [item]) ++ rest = hosts := by
        rw [List.append_assoc]
        exact hsplit
      obtain ⟨s₁, hscan, hbest⟩ := best_step hexact ⟨rest, hsplit'⟩ h
      obtain ⟨s', hall, hbest'⟩ := ih hsplit' hbest
      exact ⟨s', by rw [scanAll, hscan, Option.bind_some, hall], hbest'⟩

end Scan

theorem Best.heaviest {here : HostPid} {hosts : List DataHostPidListItem} {s : Scan}
    (h : Best here hosts s) : Heaviest here hosts s.toHostPid := by
  refine ⟨fun h' => h.attained ▸ h.bound h', fun hself => h.local_first ?_⟩
  refine le_antisymm (h.bound here) ?_
  rw [← h.attained]
  exact hself _

/-- A list of one item, which is not compared with anything. -/
theorem heaviest_single {here : HostPid} {item : DataHostPidListItem} :
    Heaviest here [item] item.hostPid ↔ ¬ (item.hostPid ≠ here ∧ item.weight = 0) := by
  have htotal : ∀ h, total [item] h = if item.hostPid = h then item.weight else 0 :=
    fun h => Nat.add_zero _
  constructor
  · rintro ⟨-, hlocal⟩ ⟨hne, hzero⟩
    refine hne (hlocal fun h' => ?_)
    rw [htotal, hzero, ite_self]
    exact Nat.zero_le _
  · intro hno
    refine ⟨fun h' => ?_, fun hself => ?_⟩
    · rw [htotal, htotal, if_pos rfl]
      split
      · exact le_rfl
      · exact Nat.zero_le _
    · by_contra hne
      have hle := hself item.hostPid
      rw [htotal, htotal, if_pos rfl, if_neg hne] at hle
      exact hno ⟨hne, Nat.le_zero.mp hle⟩

/-- **WHICH HOST IS CHOSEN**: where no sum is rounded it is the heaviest, but for a single item
    without weight on another host. -/
theorem chosen_heaviest_iff (here : HostPid) (hosts : List DataHostPidListItem) (hne : hosts ≠ [])
    (hexact : Exact hosts) :
    (∃ h, remoteScheduleTask here hosts = some h ∧ Heaviest here hosts h) ↔
      ¬ ∃ item, hosts = [item] ∧ item.hostPid ≠ here ∧ item.weight = 0 := by
  cases hosts with
  | nil => exact absurd rfl hne
  | cons item rest =>
      cases rest with
      | nil =>
          constructor
          · rintro ⟨h, hchosen, hheaviest⟩ ⟨item', hitem, hlight⟩
            obtain rfl := Option.some.inj hchosen
            obtain rfl := List.singleton_inj.mp hitem
            exact heaviest_single.mp hheaviest hlight
          · intro hno
            exact ⟨item.hostPid, rfl, heaviest_single.mpr fun hlight => hno ⟨item, rfl, hlight⟩⟩
      | cons item' rest =>
          refine ⟨fun _ => ?_, fun _ => ?_⟩
          · rintro ⟨_, hitem, -⟩
            cases hitem
          · have hstart : Best here [] ⟨here, 0, fun _ => 0⟩ := best_start
            obtain ⟨s, hall, hbest⟩ := best_scanAll hexact rfl hstart
            refine ⟨s.toHostPid, ?_, hbest.heaviest⟩
            show (scanAll here _ _).map _ = _
            rw [hall]
            rfl

/-- No sum is rounded where no host has more than `2 ^ 53`. -/
theorem exact_of_le {hosts : List DataHostPidListItem} (h : ∀ h, total hosts h ≤ 2 ^ 53) :
    Exact hosts := by
  refine ⟨fun item hitem => ?_, fun seen hseen h' => ?_, fun h' => ?_⟩
  · obtain ⟨seen, rest, rfl⟩ := List.append_of_mem hitem
    have hseen : seen ++ [item] <+: seen ++ item :: rest := ⟨rest, by simp⟩
    have hle := total_mono hseen item.hostPid
    rw [total_concat, if_pos rfl] at hle
    exact toDouble_of_le ((Nat.le_add_left _ _).trans (hle.trans (h item.hostPid)))
  · exact toDouble_of_le ((total_mono hseen h').trans (h h'))
  · exact (h h').trans_lt (by decide)

/-- Three items on two hosts. -/
theorem chosen_heaviest_three :
    let hosts : List DataHostPidListItem := [⟨⟨1, 7⟩, 4⟩, ⟨⟨2, 9⟩, 5⟩, ⟨⟨1, 7⟩, 3⟩]
    hosts ≠ [] ∧ Exact hosts ∧
      ∃ h, remoteScheduleTask ⟨2, 9⟩ hosts = some h ∧ Heaviest ⟨2, 9⟩ hosts h := by
  have hexact : Exact [⟨⟨1, 7⟩, 4⟩, ⟨⟨2, 9⟩, 5⟩, ⟨⟨1, 7⟩, 3⟩] := by
    refine exact_of_le fun h => ?_
    have hle : ∀ (c : Prop) [Decidable c] (w : ℕ), (if c then w else 0) ≤ w := by
      intro c _ w
      split
      · exact le_rfl
      · exact Nat.zero_le _
    have h₁ := hle (⟨1, 7⟩ = h) 4
    have h₂ := hle (⟨2, 9⟩ = h) 5
    have h₃ := hle (⟨1, 7⟩ = h) 3
    simp only [total, List.map_cons, List.map_nil, List.sum_cons, List.sum_nil]
    omega
  refine ⟨List.cons_ne_nil _ _, hexact,
    (chosen_heaviest_iff ⟨2, 9⟩ _ (List.cons_ne_nil _ _) hexact).mpr ?_⟩
  rintro ⟨item, hitem, -⟩
  cases hitem

/-- A host with one more than `2 ^ 53` is passed over for one with `2 ^ 53`, and a host without
    weight is taken where the local one is as heavy. -/
theorem not_heaviest :
    (remoteScheduleTask ⟨0, 1⟩ [⟨⟨1, 7⟩, 2 ^ 53⟩, ⟨⟨2, 9⟩, 2 ^ 53 + 1⟩] = some ⟨1, 7⟩ ∧
      ¬ Heaviest ⟨0, 1⟩ [⟨⟨1, 7⟩, 2 ^ 53⟩, ⟨⟨2, 9⟩, 2 ^ 53 + 1⟩] ⟨1, 7⟩) ∧
    remoteScheduleTask ⟨0, 1⟩ [⟨⟨1, 7⟩, 0⟩] = some ⟨1, 7⟩ ∧
      ¬ Heaviest ⟨0, 1⟩ [⟨⟨1, 7⟩, 0⟩] ⟨1, 7⟩ := by
  refine ⟨⟨by decide, fun h => ?_⟩, rfl, fun h => ?_⟩
  · exact absurd (h.1 ⟨2, 9⟩) (by decide)
  · exact heaviest_single.mp h ⟨by decide, rfl⟩

end PbRemoteSchedule
