import Mathlib

/-! # Relational invariants of `EStateM` programs

An `EStateM ε σ` program is a handler that changes a state and may raise; a raise
does not roll the state back, so the state a handler leaves behind is the one at
its `throw`.  This is how a `&mut self` method of Rust behaves when it returns
`Err` through `?` half-way: what it changed before stays changed.

`Keeps R x` says that a run of `x` from any state `s` ends in a state `s'` with
`R s s'`, on both the returning and the raising branch.  For a preorder `R` the
notion composes along the program's own structure — `pure`, `throw`, `get`,
`modify`, `>>=`, `if` — so that a property of a large handler follows, rule by
rule, from the properties of the few primitives that touch the fields `R` reads.
Two instances are used: `R s s' := I s → I s'` (the handler preserves the
invariant `I`), and a preorder on one field (the handler never moves it back).

The section after them does the same for a pure step function whose inputs come from
an environment that may choose them according to the state, and the last one counts what
a run of such a function hands back.
-/

namespace StateInvariant

variable {ε σ α β : Type}

/-- The state a run of `x` from `s` ends in, whether it returned or raised. -/
def final (x : EStateM ε σ α) (s : σ) : σ :=
  match x s with
  | .ok _ s' => s'
  | .error _ s' => s'

theorem final_of_ok {x : EStateM ε σ α} {s s' : σ} {a : α} (h : x s = .ok a s') :
    final x s = s' := by
  simp [final, h]

theorem final_of_error {x : EStateM ε σ α} {s s' : σ} {e : ε} (h : x s = .error e s') :
    final x s = s' := by
  simp [final, h]

/-- A handler that starts by reading the state runs its continuation on that state. -/
theorem final_get_bind (f : σ → EStateM ε σ β) (s : σ) :
    final (EStateM.get.bind f) s = final (f s) s := rfl

/-- **`x` keeps `R`**: every state is `R`-related to the state a run of `x` from it
ends in. -/
def Keeps (R : σ → σ → Prop) (x : EStateM ε σ α) : Prop := ∀ s, R s (final x s)

/-- The relation of an invariant: if it holds before, it holds after. -/
def Preserves (I : σ → Prop) (s s' : σ) : Prop := I s → I s'

instance (I : σ → Prop) : Std.Refl (Preserves I) := ⟨fun _ h => h⟩

instance (I : σ → Prop) : IsTrans σ (Preserves I) := ⟨fun _ _ _ h1 h2 h => h2 (h1 h)⟩

section Rules
variable {R : σ → σ → Prop}

theorem Keeps.mono {R' : σ → σ → Prop} {x : EStateM ε σ α} (h : Keeps R x)
    (hR : ∀ s s', R s s' → R' s s') : Keeps R' x :=
  fun s => hR _ _ (h s)

theorem keeps_modify {f : σ → σ} (h : ∀ s, R s (f s)) :
    Keeps R (modify f : EStateM ε σ PUnit) := h

theorem keeps_ite {c : Prop} [Decidable c] {x y : EStateM ε σ α} (hx : Keeps R x)
    (hy : Keeps R y) : Keeps R (if c then x else y) := by
  split
  · exact hx
  · exact hy

/-- Sequencing: the first step's end state is the second step's start state, so the
two relations chain by transitivity; a raise in the first step ends the run there. -/
theorem keeps_bind [IsTrans σ R] {x : EStateM ε σ α} {f : α → EStateM ε σ β}
    (hx : Keeps R x) (hf : ∀ a, Keeps R (f a)) : Keeps R (x >>= f) := by
  intro s
  have hs := hx s
  show R s (final (EStateM.bind x f) s)
  unfold final at hs ⊢
  simp only [EStateM.bind]
  cases h : x s with
  | ok a s' =>
    rw [h] at hs
    exact trans_of R hs (hf a s')
  | error e s' =>
    rw [h] at hs
    exact hs

variable [Std.Refl R]

theorem keeps_pure (a : α) : Keeps R (pure a : EStateM ε σ α) := fun s => Std.Refl.refl s

theorem keeps_throw (e : ε) : Keeps R (throw e : EStateM ε σ α) := fun s => Std.Refl.refl s

theorem keeps_get : Keeps R (get : EStateM ε σ σ) := fun s => Std.Refl.refl s

end Rules

/-! ## Runs that an environment drives

A component that takes inputs from outside (replies to its queries, messages) is a
step function `σ → ι → σ`; what the outside may give depends on the state reached.  An
invariant that every step the environment admits preserves holds after every
admissible run. -/

section Admissible

variable {ι : Type} (step : σ → ι → σ) (Admit : σ → ι → Prop)

/-- Every input of the run is one the environment admits at the state the run has
reached when the input comes. -/
def Admissible : σ → List ι → Prop
  | _, [] => True
  | s, i :: is => Admit s i ∧ Admissible (step s i) is

variable {step Admit}

theorem foldl_invariant {Inv : σ → Prop} (hstep : ∀ s i, Inv s → Admit s i → Inv (step s i))
    {s : σ} {is : List ι} (hs : Inv s) (hadm : Admissible step Admit s is) :
    Inv (is.foldl step s) := by
  induction is generalizing s with
  | nil => exact hs
  | cons i is ih => exact ih (hstep s i hs hadm.1) hadm.2

/-- Inputs that the environment admits at every state make an admissible run. -/
theorem admissible_of_forall_mem {P : ι → Prop} :
    ∀ {s : σ} {is : List ι}, (∀ i ∈ is, P i) → Admissible step (fun _ i => P i) s is
  | _, [], _ => trivial
  | _, i :: _, h =>
    ⟨h i List.mem_cons_self, admissible_of_forall_mem fun j hj => h j (List.mem_cons_of_mem i hj)⟩

/-- A run that the environment admits, a weaker environment admits too. -/
theorem Admissible.mono {Admit' : σ → ι → Prop} (h : ∀ s i, Admit s i → Admit' s i) :
    ∀ {s : σ} {is : List ι}, Admissible step Admit s is → Admissible step Admit' s is
  | _, [], _ => trivial
  | _, _ :: _, hadm => ⟨h _ _ hadm.1, Admissible.mono h hadm.2⟩

/-- An invariant that every input preserves holds after every run. -/
theorem foldl_invariant_of_step {Inv : σ → Prop} (hstep : ∀ s i, Inv s → Inv (step s i)) {s : σ}
    (hs : Inv s) (is : List ι) : Inv (is.foldl step s) :=
  foldl_invariant (fun s i hs _ => hstep s i hs) hs
    (admissible_of_forall_mem (P := fun _ => True) fun _ _ => trivial)

end Admissible

/-! ## What a run hands back

A component that takes inputs one after the other may hand back an output for an input
(a certificate, a reply) or reject it, which leaves it as it was.  If no output ever comes
from a `Spent` state, and an `Open` state either stays open without output or becomes
spent, a run from an open state hands back at most one output. -/

section Outputs

variable {ι ω : Type} (step : σ → ι → Except ε (Option ω × σ))

/-- The outputs of a run over some inputs, oldest first; a rejected input leaves the state
as it was. -/
def outputs : σ → List ι → List ω
  | _, [] => []
  | s, i :: is =>
    match step s i with
    | .error _ => outputs s is
    | .ok (o, s') => o.toList ++ outputs s' is

variable {step}

/-- From a state that never hands back an output again, a run hands back nothing. -/
theorem outputs_eq_nil {Spent : σ → Prop}
    (hspent : ∀ s i o s', Spent s → step s i = .ok (o, s') → o = none ∧ Spent s') :
    ∀ {s : σ} {is : List ι}, Spent s → outputs step s is = []
  | _, [], _ => rfl
  | s, i :: is, hs => by
    unfold outputs
    split
    · exact outputs_eq_nil hspent hs
    · rename_i o s' hstep
      obtain ⟨rfl, hs'⟩ := hspent s i o s' hs hstep
      exact outputs_eq_nil hspent hs'

/-- **At most one output** from an open state. -/
theorem outputs_length_le_one {Open Spent : σ → Prop}
    (hopen : ∀ s i o s', Open s → step s i = .ok (o, s') → o = none ∧ Open s' ∨ Spent s')
    (hspent : ∀ s i o s', Spent s → step s i = .ok (o, s') → o = none ∧ Spent s') :
    ∀ {s : σ} {is : List ι}, Open s → (outputs step s is).length ≤ 1
  | _, [], _ => Nat.zero_le _
  | s, i :: is, hs => by
    unfold outputs
    split
    · exact outputs_length_le_one hopen hspent hs
    · rename_i o s' hstep
      rcases hopen s i o s' hs hstep with ⟨rfl, hs'⟩ | hs'
      · exact outputs_length_le_one hopen hspent hs'
      · -- the one output, if any, and nothing after it
        rw [List.length_append, outputs_eq_nil hspent hs']
        cases o <;> simp

end Outputs

end StateInvariant
