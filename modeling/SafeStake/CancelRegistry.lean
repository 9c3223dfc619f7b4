import Mathlib.Data.List.Nodup

/-! # A registry of cancellable waiters

A task keeps a set of futures and a map from keys to a round and to the sending end of a
cancel channel; each future holds the receiving end of one such channel.  Registering a key
that the map holds does nothing; otherwise a new future joins the set and the key maps to
the round and to that future's channel.  A cleanup at a round sends on the channel of every
key registered at that round or below, and drops those keys.  Removing a key drops its
sender, and a closed channel cancels its receiver as a sent value does.  A future completes
on its own (and may then have the task remove its key), or on seeing its cancel.

While the map maps each key to the one future its entry was made for (`WellFormed`, kept by
every operation), a future that is neither cancelled nor completed is the only such future
for its key (`WellFormed.live_eq`); a cleanup leaves none of the rounds it covers
(`WellFormed.not_live_cleanup`) and cancels no other (`WellFormed.live_cleanup_iff`).
-/

namespace CancelRegistry

/-- One future of the set: what it waits for, whether its cancel channel is ready (a value
was sent on it, or its sender was dropped), and whether it has completed. -/
structure Waiter (W : Type) where
  work : W
  cancelled : Bool
  ended : Bool
deriving DecidableEq, Repr

/-- A future that still waits: not cancelled, not completed. -/
def Waiter.Live {W : Type} (w : Waiter W) : Prop := w.cancelled = false ∧ w.ended = false

instance {W : Type} (w : Waiter W) : Decidable w.Live := inferInstanceAs (Decidable (_ ∧ _))

/-- The map, each key with its round and the index of the future holding its channel's
receiver, and every future pushed on the set, in the order they were pushed; a completed
future stays, marked. -/
structure Registry (D W : Type) where
  entries : List (D × Nat × Nat)
  waiters : List (Waiter W)
deriving DecidableEq, Repr

namespace Registry

variable {D W : Type}

def empty : Registry D W := ⟨[], []⟩

/-- The futures whose index is in `js` see their cancel channel ready. -/
def cancel (ws : List (Waiter W)) (js : List Nat) : List (Waiter W) :=
  ws.mapIdx fun j w => if j ∈ js then { w with cancelled := true } else w

/-- Registering `key`: skipped when the map holds it; otherwise a new future for `work`
joins the set, and the key maps to `round` and to it. -/
def register [DecidableEq D] (r : Registry D W) (key : D) (round : Nat) (work : W) : Registry D W :=
  if key ∈ r.entries.map Prod.fst then r
  else ⟨r.entries ++ [(key, round, r.waiters.length)], r.waiters ++ [⟨work, false, false⟩]⟩

/-- A value on the channel of every key of round `round` or below; then only the keys above
it are retained. -/
def cleanup (r : Registry D W) (round : Nat) : Registry D W :=
  ⟨r.entries.filter (fun e => round < e.2.1),
    cancel r.waiters ((r.entries.filter fun e => e.2.1 ≤ round).map fun e => e.2.2)⟩

/-- The key leaves the map; its sender is dropped, which closes its future's channel. -/
def remove [DecidableEq D] (r : Registry D W) (key : D) : Registry D W :=
  ⟨r.entries.filter (fun e => e.1 ≠ key),
    cancel r.waiters ((r.entries.filter fun e => e.1 = key).map fun e => e.2.2)⟩

/-- The future of index `j` completes. -/
def finish (r : Registry D W) (j : Nat) : Registry D W :=
  { r with waiters := r.waiters.modify j fun w => { w with ended := true } }

/-- The future of index `j` makes progress on its work. -/
def update (r : Registry D W) (j : Nat) (f : W → W) : Registry D W :=
  { r with waiters := r.waiters.modify j fun w => { w with work := f w.work } }

/-! ## The futures after each operation -/

theorem getElem?_cancel (ws : List (Waiter W)) (js : List Nat) (j : Nat) :
    (cancel ws js)[j]? = ws[j]?.map fun w => if j ∈ js then { w with cancelled := true } else w :=
  List.getElem?_mapIdx

/-- A cancel only ever marks a future cancelled. -/
theorem live_of_cancel {ws : List (Waiter W)} {js : List Nat} {j : Nat} {w : Waiter W}
    (hw : (cancel ws js)[j]? = some w) (hlive : w.Live) :
    j ∉ js ∧ ws[j]? = some w := by
  rw [getElem?_cancel, Option.map_eq_some_iff] at hw
  obtain ⟨w₀, hw₀, rfl⟩ := hw
  by_cases hj : j ∈ js
  · rw [if_pos hj] at hlive
    exact nomatch hlive.1
  · rw [if_neg hj]
    exact ⟨hj, hw₀⟩

theorem getElem?_finish (r : Registry D W) (j i : Nat) :
    (r.finish j).waiters[i]? = r.waiters[i]?.map fun w => if j = i then { w with ended := true } else w :=
  List.getElem?_modify _ _ _ _

theorem getElem?_update (r : Registry D W) (j : Nat) (f : W → W) (i : Nat) :
    (r.update j f).waiters[i]? =
      r.waiters[i]?.map fun w => if j = i then { w with work := f w.work } else w :=
  List.getElem?_modify _ _ _ _

/-- What every future pushed waits for, in order. -/
def works (r : Registry D W) : List W := r.waiters.map Waiter.work

theorem getElem?_works (r : Registry D W) (j : Nat) : r.works[j]? = r.waiters[j]?.map Waiter.work :=
  List.getElem?_map

/-- A cancel leaves every future's work as it was. -/
theorem map_work_cancel (ws : List (Waiter W)) (js : List Nat) :
    (cancel ws js).map Waiter.work = ws.map Waiter.work := by
  refine List.ext_getElem? fun i => ?_
  rw [List.getElem?_map, List.getElem?_map, getElem?_cancel]
  cases ws[i]? with
  | none => rfl
  | some w =>
    show some (if i ∈ js then { w with cancelled := true } else w).work = some w.work
    split <;> rfl

theorem works_cleanup (r : Registry D W) (round : Nat) : (r.cleanup round).works = r.works :=
  map_work_cancel _ _

theorem works_remove [DecidableEq D] (r : Registry D W) (key : D) : (r.remove key).works = r.works :=
  map_work_cancel _ _

theorem works_finish (r : Registry D W) (j : Nat) : (r.finish j).works = r.works := by
  refine List.ext_getElem? fun i => ?_
  rw [getElem?_works, getElem?_works, getElem?_finish]
  cases r.waiters[i]? with
  | none => rfl
  | some w =>
    show some (if j = i then { w with ended := true } else w).work = some w.work
    split <;> rfl

theorem works_update (r : Registry D W) (j : Nat) (f : W → W) :
    (r.update j f).works = r.works.modify j f := by
  refine List.ext_getElem? fun i => ?_
  rw [getElem?_works, getElem?_update, List.getElem?_modify, getElem?_works]
  cases r.waiters[i]? with
  | none => rfl
  | some w =>
    show some (if j = i then { w with work := f w.work } else w).work =
      some (if j = i then f w.work else w.work)
    split <;> rfl

/-- Registering adds the key to the map's keys, unless the map holds it. -/
theorem keys_register [DecidableEq D] (r : Registry D W) (key : D) (round : Nat) (work : W) :
    (r.register key round work).entries.map Prod.fst =
      if key ∈ r.entries.map Prod.fst then r.entries.map Prod.fst
      else r.entries.map Prod.fst ++ [key] := by
  unfold Registry.register
  split
  · rfl
  · exact List.map_append ..

theorem works_register [DecidableEq D] (r : Registry D W) (key : D) (round : Nat) (work : W) :
    (r.register key round work).works = r.works ∨
      (r.register key round work).works = r.works ++ [work] := by
  unfold Registry.register
  split
  · exact .inl rfl
  · exact .inr (List.map_append ..)

/-! ## The invariant -/

section WellFormed

variable (keyOf : W → D) (roundOf : W → Nat)

/-- Each key of the map is held by one future, registered for that key and round and never
cancelled, and every future that still waits holds the entry of its key. -/
structure WellFormed (r : Registry D W) : Prop where
  nodup : (r.entries.map Prod.fst).Nodup
  entry : ∀ e ∈ r.entries, ∃ w, r.waiters[e.2.2]? = some w ∧
    e = (keyOf w.work, roundOf w.work, e.2.2) ∧ w.cancelled = false
  live : ∀ j w, r.waiters[j]? = some w → w.Live → (keyOf w.work, roundOf w.work, j) ∈ r.entries

variable {keyOf roundOf}

theorem WellFormed.empty : (empty : Registry D W).WellFormed keyOf roundOf :=
  ⟨List.nodup_nil, fun _ h => absurd h List.not_mem_nil, fun _ _ h => absurd h (by simp [Registry.empty])⟩

/-- Two entries held by one future are one entry. -/
theorem WellFormed.entry_eq {r : Registry D W} (h : r.WellFormed keyOf roundOf)
    {e e' : D × Nat × Nat} (he : e ∈ r.entries) (he' : e' ∈ r.entries) (hj : e.2.2 = e'.2.2) :
    e = e' := by
  obtain ⟨w, hw, heq, _⟩ := h.entry e he
  obtain ⟨w', hw', heq', _⟩ := h.entry e' he'
  rw [hj, hw'] at hw
  cases hw
  rw [heq, heq', hj]

/-- **One future waits for each key**: two futures that still wait, for the same key, are
the same future. -/
theorem WellFormed.live_eq {r : Registry D W} (h : r.WellFormed keyOf roundOf) {j j' : Nat}
    {w w' : Waiter W} (hw : r.waiters[j]? = some w) (hw' : r.waiters[j']? = some w')
    (hlive : w.Live) (hlive' : w'.Live) (hkey : keyOf w.work = keyOf w'.work) : j = j' := by
  have he := h.live j w hw hlive
  have he' := h.live j' w' hw' hlive'
  have heq := List.inj_on_of_nodup_map h.nodup he he' hkey
  exact congrArg (fun e => e.2.2) heq

theorem WellFormed.register [DecidableEq D] {r : Registry D W} (h : r.WellFormed keyOf roundOf) {key : D}
    {round : Nat} {work : W} (hkey : keyOf work = key) (hround : roundOf work = round) :
    (r.register key round work).WellFormed keyOf roundOf := by
  unfold Registry.register
  split
  · exact h
  · rename_i hnew
    -- every old entry is held by an old future, of an index below the new one
    have hlt : ∀ e ∈ r.entries, e.2.2 < r.waiters.length := fun e he => by
      obtain ⟨w, hw, _⟩ := h.entry e he
      exact (List.getElem?_eq_some_iff.mp hw).1
    refine ⟨?_, fun e he => ?_, fun j w hw hlive => ?_⟩
    · rw [List.map_append, List.nodup_append]
      refine ⟨h.nodup, List.nodup_singleton _, fun a ha b hb => ?_⟩
      simp only [List.map_singleton, List.mem_singleton] at hb
      rintro rfl
      exact hnew (hb ▸ ha)
    · rcases List.mem_append.mp he with he | he
      · rw [List.getElem?_append_left (hlt e he)]
        exact h.entry e he
      · rw [List.mem_singleton] at he
        subst he
        exact ⟨⟨work, false, false⟩, List.getElem?_concat_length, by rw [hkey, hround], rfl⟩
    · rcases Nat.lt_or_ge j r.waiters.length with hj | hj
      · rw [List.getElem?_append_left hj] at hw
        exact List.mem_append_left _ (h.live j w hw hlive)
      · rw [List.getElem?_append_right hj, List.getElem?_singleton] at hw
        split at hw
        · cases hw
          have hj' : j = r.waiters.length := by omega
          rw [hkey, hround, hj']
          exact List.mem_append_right _ (List.mem_singleton_self _)
        · cases hw

theorem WellFormed.cleanup {r : Registry D W} (h : r.WellFormed keyOf roundOf) (round : Nat) :
    (r.cleanup round).WellFormed keyOf roundOf := by
  refine ⟨(List.filter_sublist.map _).nodup h.nodup, fun e he => ?_, fun j w hw hlive => ?_⟩
  · -- a retained entry is above the round, so no cleaned entry shares its future
    obtain ⟨he, habove⟩ := List.mem_filter.mp he
    obtain ⟨w, hw, heq, hcancel⟩ := h.entry e he
    have hout : e.2.2 ∉ (r.entries.filter fun e => e.2.1 ≤ round).map fun e => e.2.2 := by
      rw [List.mem_map]
      rintro ⟨e', he', hj⟩
      obtain ⟨he', hbelow⟩ := List.mem_filter.mp he'
      have := h.entry_eq he he' hj.symm
      subst this
      simp only [decide_eq_true_eq] at habove hbelow
      omega
    refine ⟨w, ?_, heq, hcancel⟩
    show (cancel r.waiters _)[e.2.2]? = some w
    rw [getElem?_cancel, hw, Option.map_some, if_neg hout]
  · -- a future still waiting after the cleanup was not cleaned: its entry is above the round
    obtain ⟨hj, hw⟩ := live_of_cancel hw hlive
    have he := h.live j w hw hlive
    refine List.mem_filter.mpr ⟨he, decide_eq_true (Nat.lt_of_not_le fun hle => hj ?_)⟩
    exact List.mem_map.mpr ⟨_, List.mem_filter.mpr ⟨he, decide_eq_true hle⟩, rfl⟩

theorem WellFormed.remove [DecidableEq D] {r : Registry D W} (h : r.WellFormed keyOf roundOf) (key : D) :
    (r.remove key).WellFormed keyOf roundOf := by
  refine ⟨(List.filter_sublist.map _).nodup h.nodup, fun e he => ?_, fun j w hw hlive => ?_⟩
  · obtain ⟨he, hother⟩ := List.mem_filter.mp he
    obtain ⟨w, hw, heq, hcancel⟩ := h.entry e he
    have hout : e.2.2 ∉ (r.entries.filter fun e => e.1 = key).map fun e => e.2.2 := by
      rw [List.mem_map]
      rintro ⟨e', he', hj⟩
      obtain ⟨he', hkey⟩ := List.mem_filter.mp he'
      have := h.entry_eq he he' hj.symm
      subst this
      simp only [decide_eq_true_eq] at hother hkey
      exact hother hkey
    refine ⟨w, ?_, heq, hcancel⟩
    show (cancel r.waiters _)[e.2.2]? = some w
    rw [getElem?_cancel, hw, Option.map_some, if_neg hout]
  · obtain ⟨hj, hw⟩ := live_of_cancel hw hlive
    have he := h.live j w hw hlive
    refine List.mem_filter.mpr ⟨he, decide_eq_true fun hkey => hj ?_⟩
    exact List.mem_map.mpr ⟨_, List.mem_filter.mpr ⟨he, decide_eq_true hkey⟩, rfl⟩

theorem WellFormed.finish {r : Registry D W} (h : r.WellFormed keyOf roundOf) (j : Nat) :
    (r.finish j).WellFormed keyOf roundOf := by
  refine ⟨h.nodup, fun e he => ?_, fun i w hw hlive => ?_⟩
  · obtain ⟨w, hw, heq, hcancel⟩ := h.entry e he
    rw [getElem?_finish, hw, Option.map_some]
    split
    · exact ⟨_, rfl, heq, hcancel⟩
    · exact ⟨w, rfl, heq, hcancel⟩
  · rw [getElem?_finish, Option.map_eq_some_iff] at hw
    obtain ⟨w₀, hw₀, rfl⟩ := hw
    split at hlive
    · exact nomatch hlive.2
    · rw [if_neg (by assumption)]
      exact h.live i w₀ hw₀ hlive

theorem WellFormed.update {r : Registry D W} (h : r.WellFormed keyOf roundOf) (j : Nat)
    {f : W → W} (hkey : ∀ x, keyOf (f x) = keyOf x) (hround : ∀ x, roundOf (f x) = roundOf x) :
    (r.update j f).WellFormed keyOf roundOf := by
  refine ⟨h.nodup, fun e he => ?_, fun i w hw hlive => ?_⟩
  · obtain ⟨w, hw, heq, hcancel⟩ := h.entry e he
    rw [getElem?_update, hw, Option.map_some]
    split
    · exact ⟨_, rfl, by rw [heq, hkey, hround], hcancel⟩
    · exact ⟨w, rfl, heq, hcancel⟩
  · rw [getElem?_update, Option.map_eq_some_iff] at hw
    obtain ⟨w₀, hw₀, rfl⟩ := hw
    split at hlive
    · rw [if_pos (by assumption)]
      show (keyOf (f w₀.work), roundOf (f w₀.work), i) ∈ r.entries
      rw [hkey, hround]
      exact h.live i w₀ hw₀ hlive
    · rw [if_neg (by assumption)]
      exact h.live i w₀ hw₀ hlive

/-- **A cleanup leaves no future of its rounds waiting.** -/
theorem WellFormed.not_live_cleanup {r : Registry D W} (h : r.WellFormed keyOf roundOf)
    {round j : Nat} {w : Waiter W} (hw : (r.cleanup round).waiters[j]? = some w)
    (hround : roundOf w.work ≤ round) : ¬w.Live := by
  intro hlive
  obtain ⟨hj, hw⟩ := live_of_cancel hw hlive
  have he := h.live j w hw hlive
  exact hj (List.mem_map.mpr ⟨_, List.mem_filter.mpr ⟨he, decide_eq_true hround⟩, rfl⟩)

/-- **A cleanup cancels exactly its rounds**: a future that waits goes on waiting through a
cleanup exactly when its round is above the cleanup's. -/
theorem WellFormed.live_cleanup_iff {r : Registry D W} (h : r.WellFormed keyOf roundOf)
    {round j : Nat} {w : Waiter W} (hw : r.waiters[j]? = some w) (hlive : w.Live) :
    ∃ w', (r.cleanup round).waiters[j]? = some w' ∧ (w'.Live ↔ round < roundOf w.work) := by
  have he := h.live j w hw hlive
  by_cases hbelow : roundOf w.work ≤ round
  · -- the future's own entry is cleaned, so its channel gets a value
    have hj : j ∈ (r.entries.filter fun e => e.2.1 ≤ round).map fun e => e.2.2 :=
      List.mem_map.mpr ⟨_, List.mem_filter.mpr ⟨he, decide_eq_true hbelow⟩, rfl⟩
    refine ⟨{ w with cancelled := true }, ?_, ?_⟩
    · show (cancel r.waiters _)[j]? = _
      rw [getElem?_cancel, hw, Option.map_some, if_pos hj]
    · constructor
      · intro hl
        exact nomatch hl.1
      · intro hlt
        omega
  · -- no cleaned entry names the future: its one entry is above the round
    have hj : j ∉ (r.entries.filter fun e => e.2.1 ≤ round).map fun e => e.2.2 := by
      rw [List.mem_map]
      rintro ⟨e, he', hidx⟩
      obtain ⟨he', hle⟩ := List.mem_filter.mp he'
      have heq := h.entry_eq he' he hidx
      subst heq
      simp only [decide_eq_true_eq] at hle
      exact hbelow hle
    refine ⟨w, ?_, ?_⟩
    · show (cancel r.waiters _)[j]? = _
      rw [getElem?_cancel, hw, Option.map_some, if_neg hj]
    · exact ⟨fun _ => Nat.lt_of_not_le hbelow, fun _ => hlive⟩

end WellFormed

end Registry

end CancelRegistry
