import PetaBricks.ConfigFileProofs

/-! # Runs of saving and loading

    As long as nothing has changed, the file and the tuner's configuration hold a line and an
    entry for each tunable, in some order (`Tracks`).  What happens next is then decided by
    who has written the file: `step_iff` for one operation, `exchange_iff` for all runs. -/

namespace PbConfigFile

open PbDecimal

/-! ## Dictionaries -/

theorem foldl_setItem {α : Type} {d es : List (List Char × α)}
    (h : ((d ++ es).map Prod.fst).Nodup) : es.foldl setItem d = d ++ es := by
  induction es generalizing d with
  | nil => simp
  | cons e es ih =>
      have hnew : ∀ x ∈ d, x.1 ≠ e.1 := by
        intro x hx heq
        rw [List.map_append, List.nodup_append'] at h
        exact h.2.2 (List.mem_map_of_mem hx) (heq ▸ List.mem_map_of_mem List.mem_cons_self)
      have hset : setItem d e = d ++ [e] := by
        rw [setItem, List.filter_eq_self.mpr fun x hx => decide_eq_true (hnew x hx)]
      rw [List.foldl_cons, hset, ih (by simpa using h)]
      simp

variable {ts : List Tunable} {f : Tunable → List Char}

/-- Every line is parsed: an entry for each tunable. -/
theorem configLoad_eq {e : Tunable → List Char × Value × List Char}
    (h : ∀ t ∈ ts, configLine (f t) = some (e t)) (hnd : (ts.map fun t => (e t).1).Nodup) :
    configLoad (ts.map f) = ts.map e := by
  have hfold : ∀ (us : List Tunable) d, (∀ t ∈ us, configLine (f t) = some (e t)) →
      (us.map f).foldl (fun values line => (configLine line).elim values (setItem values)) d =
        (us.map e).foldl setItem d := by
    intro us
    induction us with
    | nil => intro d _; rfl
    | cons u us ih =>
        intro d hus
        rw [List.map_cons, List.map_cons, List.foldl_cons, List.foldl_cons,
          hus u List.mem_cons_self]
        exact ih _ fun t ht => hus t (List.mem_cons_of_mem _ ht)
  rw [configLoad, hfold ts [] h]
  exact foldl_setItem (by simpa [Function.comp_def] using hnd)

theorem loadRaw_eq {e : Tunable → List Char × Value}
    (h : ∀ t ∈ ts, loadLine (f t) = some (some (e t))) (hnd : (ts.map fun t => (e t).1).Nodup) :
    loadRaw (ts.map f) = some (ts.map e) := by
  have hfold : ∀ (us : List Tunable) d, (∀ t ∈ us, loadLine (f t) = some (some (e t))) →
      (us.map f).foldlM (fun rv line => (loadLine line).map fun e => e.elim rv (setItem rv)) d =
        some ((us.map e).foldl setItem d) := by
    intro us
    induction us with
    | nil => intro d _; rfl
    | cons u us ih =>
        intro d hus
        rw [List.map_cons, List.map_cons, List.foldlM_cons, List.foldl_cons,
          hus u List.mem_cons_self]
        exact ih _ fun t ht => hus t (List.mem_cons_of_mem _ ht)
  rw [loadRaw, hfold ts [] h]
  exact congrArg some (foldl_setItem (by simpa [Function.comp_def] using hnd))

/-- One conversion that fails stops the program. -/
theorem loadRaw_none {t : Tunable} (ht : t ∈ ts) (h : loadLine (f t) = none) :
    loadRaw (ts.map f) = none := by
  have hfold : ∀ (us : List Tunable) d, t ∈ us →
      (us.map f).foldlM (fun rv line => (loadLine line).map fun e => e.elim rv (setItem rv)) d =
        none := by
    intro us
    induction us with
    | nil => intro d hus; cases hus
    | cons u us ih =>
        intro d hus
        rw [List.map_cons, List.foldlM_cons]
        rcases List.mem_cons.mp hus with rfl | hus
        · rw [h]
          rfl
        · cases hu : loadLine (f u) with
          | none => rfl
          | some e => exact ih _ hus
  exact hfold ts [] ht

theorem getItem_map {e : Tunable → List Char × Value × List Char} (he : ∀ t, (e t).1 = t.name)
    (hnd : (ts.map Tunable.name).Nodup) {t : Tunable} (ht : t ∈ ts) :
    getItem (ts.map e) t.name = some (e t).2.1 := by
  induction ts with
  | nil => cases ht
  | cons u us ih =>
      rw [List.map_cons, List.nodup_cons] at hnd
      rw [List.map_cons, getItem]
      rcases List.mem_cons.mp ht with rfl | ht
      · rw [List.find?_cons_of_pos (by simpa using he t)]
        rfl
      · have hne : u.name ≠ t.name := fun heq => hnd.1 (heq ▸ List.mem_map_of_mem ht)
        rw [List.find?_cons_of_neg (by simpa [he] using hne)]
        exact ih hnd.2 ht

/-! ## What is known of a state -/

variable {T : Tunables}

/-- Setting every tunable to its own value changes nothing. -/
theorem jtunableLoad_eq {us : List Tunable} (hus : us.Perm T.list)
    (h : ∀ t ∈ us, loadLine (f t) = some (some (t.name, t.value))) :
    jtunableLoad T.list (us.map f) = some T.list := by
  have hnd : (us.map Tunable.name).Nodup := (hus.map _).nodup_iff.mpr T.nodup
  have hset : ∀ u ∈ us, T.list.map (setValue (u.name, u.value)) = T.list := by
    intro u hu
    refine (List.map_congr_left fun t ht => ?_).trans (List.map_id T.list)
    by_cases hname : t.name = u.name
    · have heq : t = u := List.inj_on_of_nodup_map T.nodup ht (hus.subset hu) hname
      rw [setValue, if_pos hname, ← heq, verify]
      exact if_pos (T.inRange t ht)
    · exact if_neg hname
  have hfold : ∀ vs : List Tunable, (∀ u ∈ vs, u ∈ us) →
      (vs.map fun t => (t.name, t.value)).foldl (fun ts e => ts.map (setValue e)) T.list = T.list := by
    intro vs hvs
    induction vs with
    | nil => rfl
    | cons v vs ih =>
        rw [List.map_cons, List.foldl_cons, hset v (hvs v List.mem_cons_self)]
        exact ih fun u hu => hvs u (List.mem_cons_of_mem _ hu)
  rw [jtunableLoad, loadRaw_eq h hnd, Option.map_some, hfold us fun u hu => hu]

/-- The state has the values of the tunables, and the tuner's configuration has them too. -/
def Same (T : Tunables) (s : State) : Prop :=
  s.tunables = T.list ∧
    ∀ values, s.config = some values → ∀ t ∈ T.list, getItem values t.name = some t.value

/-- Who has written the file; the tuner, from a configuration that was read so many times from
    a file of its own. -/
inductive Written
  | jtunable
  | config (j : ℕ)

/-- Nothing has changed, and the file was written by this side from these values. -/
structure Tracks (T : Tunables) (s : State) (file : Option Written) (config : Option ℕ) : Prop where
  tunables : s.tunables = T.list
  file : match file with
    | none => s.file = none
    | some .jtunable => s.file = some (T.list.map saveLine)
    | some (.config j) => ∃ us : List Tunable, us.Perm T.list ∧
        s.file = some (us.map fun t => configSaveLine (entry j t))
  config : match config with
    | none => s.config = none
    | some j => ∃ us : List Tunable, us.Perm T.list ∧ s.config = some (us.map (entry j))

/-- The tuner gets no exponent, and the program no comment with one. -/
def OpSafe (T : Tunables) (file : Option Written) (config : Option ℕ) : Op → Prop
  | .jtunableSave => True
  | .configLoad =>
      match file with
      | none => False
      | some .jtunable => ∀ t ∈ T.list, t.Plain
      | some (.config _) => ∀ t ∈ T.list, t.Unit
  | .configSave => config.isSome
  | .jtunableLoad =>
      match file with
      | none => False
      | some .jtunable => True
      | some (.config j) => j = 0 ∨ ∀ t ∈ T.list, ∃ i, t.value = .int i

/-- Who has written the file, and what the configuration comes from, after an operation. -/
def advance (file : Option Written) (config : Option ℕ) : Op → Option Written × Option ℕ
  | .jtunableSave => (some .jtunable, config)
  | .configLoad =>
      match file with
      | some (.config j) => (file, some (j + 1))
      | _ => (file, some 0)
  | .configSave => (config.map .config, config)
  | .jtunableLoad => (file, config)

variable {s s' : State} {file : Option Written} {config : Option ℕ} {op : Op}

theorem Tracks.same (h : Tracks T s file config) : Same T s := by
  refine ⟨h.tunables, fun values hvalues t ht => ?_⟩
  have hconfig := h.config
  cases config with
  | none =>
      rw [hvalues] at hconfig
      cases hconfig
  | some j =>
      obtain ⟨us, hus, heq⟩ := hconfig
      rw [hvalues] at heq
      cases heq
      exact getItem_map (fun _ => rfl) ((hus.map _).nodup_iff.mpr T.nodup) (hus.mem_iff.mpr ht)

theorem withoutExponent_ne {t : Tunable} (h : ¬ t.Unit) : withoutExponent t.value ≠ t.value := by
  rw [Tunable.Unit] at h
  cases hv : t.value with
  | int i =>
      rw [hv] at h
      exact absurd trivial h
  | double q =>
      rw [hv] at h
      intro heq
      have hq : q / 10 ^ exponent q = q := by
        injection heq
      have hpos : (10 : ℚ) ^ exponent q ≠ 0 := zpow_ne_zero _ (by norm_num)
      have hne : q ≠ 0 := by
        rintro rfl
        exact h exponent_zero
      have hone : (10 : ℚ) ^ exponent q = 1 := by
        have hmul := (div_eq_iff hpos).mp hq
        exact (mul_eq_left₀ hne).mp hmul.symm
      exact h ((zpow_eq_one_iff_right₀ (by norm_num) (by norm_num)).mp hone)

theorem Tunable.Unit.withoutExponent {t : Tunable} (h : t.Unit) :
    withoutExponent t.value = t.value := by
  rw [Tunable.Unit] at h
  cases hv : t.value with
  | int i => rfl
  | double q =>
      rw [hv] at h
      have hq : exponent q = 0 := h
      rw [PbConfigFile.withoutExponent, hq, zpow_zero, div_one]

/-- A double with exponent zero is printed without one. -/
theorem Tunable.Unit.plain {t : Tunable} (h : t.Unit) : t.Plain := by
  rw [Tunable.Unit] at h
  rw [Tunable.Plain]
  cases hv : t.value with
  | int i => trivial
  | double q =>
      rw [hv] at h
      have hq : exponent q = 0 := h
      show -4 ≤ exponent q ∧ exponent q ≤ (34 : ℕ)
      rw [hq]
      decide

/-- **ONE SAFE OPERATION** changes nothing. -/
theorem step_safe (h : Tracks T s file config) (hs : OpSafe T file config op) :
    ∃ s', step s op = some s' ∧
      Tracks T s' (advance file config op).1 (advance file config op).2 := by
  obtain ⟨ts, values, lines⟩ := s
  obtain ⟨htun, hfile, hconfig⟩ := h
  obtain rfl : ts = T.list := htun
  cases op with
  | jtunableSave => exact ⟨_, rfl, rfl, rfl, hconfig⟩
  | configLoad =>
      cases file with
      | none => exact hs.elim
      | some w =>
          cases w with
          | jtunable =>
              obtain rfl : lines = some (T.list.map saveLine) := hfile
              have hload : configLoad (T.list.map saveLine) = T.list.map (entry 0) := by
                refine configLoad_eq (fun t ht => ?_) T.nodup
                obtain ⟨c, hline, hc⟩ := configLine_saveLine (T.typed t ht) (T.identifier t ht)
                rw [hline, if_pos (hs t ht), hc (hs t ht), entry, com_zero]
              exact ⟨_, rfl, rfl, rfl, T.list, .rfl, congrArg some hload⟩
          | config j =>
              obtain ⟨us, hus, hlines⟩ := hfile
              obtain rfl : lines = some (us.map fun t => configSaveLine (entry j t)) := hlines
              have hload : configLoad (us.map fun t => configSaveLine (entry j t)) =
                  us.map (entry (j + 1)) := by
                refine configLoad_eq (fun t ht => ?_) ((hus.map _).nodup_iff.mpr T.nodup)
                have htl := hus.mem_iff.mp ht
                rw [configLine_configSaveLine (T.typed t htl) (T.identifier t htl) j,
                  (hs t htl).withoutExponent]
                rfl
              exact ⟨_, rfl, rfl, ⟨us, hus, rfl⟩, us, hus, congrArg some hload⟩
  | configSave =>
      cases config with
      | none => cases hs
      | some j =>
          obtain ⟨us, hus, hvalues⟩ := hconfig
          obtain rfl : values = some (us.map (entry j)) := hvalues
          have hsort := List.map_mergeSort (f := entry j) (l := us)
            (r := fun a b => decide (a.name ≤ b.name)) (s := fun a b => decide (a.1 ≤ b.1))
            fun a _ b _ => rfl
          have hsave : configSave (us.map (entry j)) =
              (us.mergeSort fun a b => decide (a.name ≤ b.name)).map
                fun t => configSaveLine (entry j t) := by
            rw [configSave, ← hsort, List.map_map]
            rfl
          exact ⟨_, rfl, rfl, ⟨_, (List.mergeSort_perm _ _).trans hus, congrArg some hsave⟩,
            us, hus, rfl⟩
  | jtunableLoad =>
      have hdone : ∀ {us : List Tunable} {g : Tunable → List Char}, us.Perm T.list →
          lines = some (us.map g) → (∀ t ∈ us, loadLine (g t) = some (some (t.name, t.value))) →
          step ⟨T.list, values, lines⟩ .jtunableLoad = some ⟨T.list, values, lines⟩ := by
        intro us g hus hlines hall
        rw [hlines]
        show (jtunableLoad T.list (us.map g)).bind _ = _
        rw [jtunableLoad_eq hus hall]
        rfl
      cases file with
      | none => exact hs.elim
      | some w =>
          cases w with
          | jtunable =>
              exact ⟨_, hdone .rfl hfile fun t ht =>
                loadLine_saveLine (T.typed t ht) (T.identifier t ht), rfl, hfile, hconfig⟩
          | config j =>
              obtain ⟨us, hus, hlines⟩ := hfile
              refine ⟨_, hdone hus hlines fun t ht => ?_, rfl, ⟨us, hus, hlines⟩, hconfig⟩
              have htl := hus.mem_iff.mp ht
              exact loadLine_configSaveLine (T.typed t htl) (T.identifier t htl)
                (hs.imp id fun hall => hall t htl)

/-- **AN UNSAFE OPERATION** fails or changes a value. -/
theorem safe_of_same (h : Tracks T s file config) (hstep : step s op = some s') (hs : Same T s') :
    OpSafe T file config op := by
  obtain ⟨htun, hfile, hconfig⟩ := h
  cases op with
  | jtunableSave => trivial
  | configLoad =>
      cases file with
      | none =>
          rw [step, hfile] at hstep
          cases hstep
      | some w =>
          cases w with
          | jtunable =>
              intro t ht
              by_contra hplain
              obtain ⟨c, hc⟩ : ∃ c : Tunable → List Char, ∀ u ∈ T.list, configLine (saveLine u) =
                  some (u.name, if u.Plain then u.value else withoutExponent u.value, c u) := by
                refine ⟨fun u => ((configLine (saveLine u)).elim [] fun e => e.2.2), fun u hu => ?_⟩
                obtain ⟨c, hline, _⟩ := configLine_saveLine (T.typed u hu) (T.identifier u hu)
                simp [hline]
              have hload := configLoad_eq hc T.nodup
              rw [step, hfile, Option.map_some, hload] at hstep
              cases hstep
              have hget := hs.2 _ rfl t ht
              rw [getItem_map (fun _ => rfl) T.nodup ht, if_neg hplain] at hget
              exact withoutExponent_ne (fun hu => hplain hu.plain) (Option.some.inj hget)
          | config j =>
              obtain ⟨us, hus, hlines⟩ := hfile
              intro t ht
              by_contra hunit
              have hnd := (hus.map Tunable.name).nodup_iff.mpr T.nodup
              have hload : configLoad (us.map fun t => configSaveLine (entry j t)) =
                  us.map fun t => (t.name, withoutExponent t.value, com (j + 1) t) :=
                configLoad_eq (fun u hu => configLine_configSaveLine (T.typed u (hus.mem_iff.mp hu))
                  (T.identifier u (hus.mem_iff.mp hu)) j) hnd
              rw [step, hlines, Option.map_some, hload] at hstep
              cases hstep
              have hget := hs.2 _ rfl t ht
              rw [getItem_map (fun _ => rfl) hnd (hus.mem_iff.mpr ht)] at hget
              exact withoutExponent_ne hunit (Option.some.inj hget)
  | configSave =>
      cases config with
      | none =>
          rw [step, hconfig] at hstep
          cases hstep
      | some j => rfl
  | jtunableLoad =>
      cases file with
      | none =>
          rw [step, hfile] at hstep
          cases hstep
      | some w =>
          cases w with
          | jtunable => trivial
          | config j =>
              obtain ⟨us, hus, hlines⟩ := hfile
              cases j with
              | zero => exact .inl rfl
              | succ j =>
                  refine .inr fun t ht => ?_
                  cases hv : t.value with
                  | int i => exact ⟨i, rfl⟩
                  | double q =>
                      have hnone := loadRaw_none (f := fun t => configSaveLine (entry (j + 1) t))
                        (hus.mem_iff.mpr ht)
                        (loadLine_spoiled (T.typed t ht) (T.identifier t ht) hv j)
                      rw [step, hlines] at hstep
                      change (jtunableLoad s.tunables _).bind _ = _ at hstep
                      rw [jtunableLoad, hnone] at hstep
                      cases hstep

/-! ## Runs -/

/-- Every operation succeeds, and all values are the same after it. -/
def Preserves (T : Tunables) : State → List Op → Prop
  | _, [] => True
  | s, op :: ops => ∃ s', step s op = some s' ∧ Same T s' ∧ Preserves T s' ops

/-- Every operation is safe where it happens. -/
def Safe (T : Tunables) : Option Written → Option ℕ → List Op → Prop
  | _, _, [] => True
  | file, config, op :: ops =>
      OpSafe T file config op ∧ Safe T (advance file config op).1 (advance file config op).2 ops

/-- No file yet, and no configuration. -/
def start (T : Tunables) : State := ⟨T.list, none, none⟩

theorem tracks_start (T : Tunables) : Tracks T (start T) none none := ⟨rfl, rfl, rfl⟩

theorem preserves_of_safe {ops : List Op} (h : Tracks T s file config)
    (hs : Safe T file config ops) : Preserves T s ops := by
  induction ops generalizing s file config with
  | nil => trivial
  | cons op ops ih =>
      obtain ⟨s', hstep, htracks⟩ := step_safe h hs.1
      exact ⟨s', hstep, htracks.same, ih htracks hs.2⟩

theorem safe_of_preserves {ops : List Op} (h : Tracks T s file config)
    (hp : Preserves T s ops) : Safe T file config ops := by
  induction ops generalizing s file config with
  | nil => trivial
  | cons op ops ih =>
      obtain ⟨s', hstep, hsame, hrest⟩ := hp
      have hop := safe_of_same h hstep hsame
      obtain ⟨s'', hstep', htracks⟩ := step_safe h hop
      rw [hstep] at hstep'
      cases hstep'
      exact ⟨hop, ih htracks hrest⟩

/-- **WHICH RUNS PRESERVE EVERYTHING.** -/
theorem exchange_iff (T : Tunables) (ops : List Op) :
    Preserves T (start T) ops ↔ Safe T none none ops :=
  ⟨safe_of_preserves (tracks_start T), preserves_of_safe (tracks_start T)⟩

theorem exponent_ten : exponent 10 = 1 := by
  have hlog := Int.log_natCast (R := ℚ) 10 10
  have hone : Nat.log 10 10 = 1 := by decide
  rw [exponent, show |(10 : ℚ)| = ((10 : ℕ) : ℚ) by norm_num, hlog, hone]
  rfl

/-- One double, which is ten. -/
def tenTunables : Tunables where
  list := [⟨['x'], .double 10, .double 10, .double 0, .double 100⟩]
  nodup := by simp
  identifier := by
    intro t ht
    rw [List.mem_singleton.mp ht]
    exact ⟨by decide, List.all_iff_forall_prop.mp (by decide)⟩
  typed := by
    intro t ht
    rw [List.mem_singleton.mp ht]
    exact ⟨10 ^ 25, by rw [exponent_ten]; norm_num⟩
  inRange := by
    intro t ht
    rw [List.mem_singleton.mp ht]
    constructor <;> norm_num [Value.asD]

/-- The tuner reads ten back from its own file as one. -/
theorem ten_lost :
    ¬ Preserves tenTunables (start tenTunables)
      [.jtunableSave, .configLoad, .configSave, .configLoad] := by
  intro h
  have hsafe := (safe_of_preserves (tracks_start tenTunables) h).2.2.2.1
  have hten : exponent 10 = 0 := hsafe ⟨['x'], .double 10, .double 10, .double 0, .double 100⟩
    (List.mem_singleton.mpr rfl)
  rw [exponent_ten] at hten
  cases hten

end PbConfigFile
