import Mathlib.Data.List.Induction

/-!
# Runs of a deterministic machine

A machine is a function `step : σ → ι → ο × σ`: on an input it answers and moves
to a new state. Everything that is said over whole runs goes through the two
functions of this file, `StepMachine.after` – the state a list of inputs leads
to – and `StepMachine.history` – the inputs with the answers they got, oldest
first – and through the two induction principles

* `StepMachine.invariant_after`, for a property of the state alone;
* `StepMachine.invariant_history`, for a property that ties the state to the
  history that led to it.

Some machines only accept the inputs their environment may produce;
`StepMachine.Admits` says that each input of a run was acceptable in the state it
met, and both principles have a version that may use it. Two runs of the same
machine are compared by `StepMachine.history_eq_of_lockstep` when they have the
same inputs, and by `StepMachine.filter_history_eq` when one has only some of the
inputs of the other.

A machine closer to the code may get stuck on an input. `StepMachine.run` is the run of
such a machine, and `StepMachine.run_of_simulation` the rule by which it is compared
with one that never does.
-/

namespace StepMachine

variable {σ ι ο : Type*} (step : σ → ι → ο × σ)

/-- The state reached from `s` by the inputs `is`, the first one first. -/
def after (s : σ) (is : List ι) : σ := is.foldl (fun s i => (step s i).2) s

/-- The inputs with the answers they got, oldest first. -/
def history (s : σ) : List ι → List (ι × ο)
  | [] => []
  | i :: is => (i, (step s i).1) :: history (step s i).2 is

/-- Every input of a run is acceptable in the state it meets. -/
def Admits (ok : σ → ι → Prop) (s : σ) : List ι → Prop
  | [] => True
  | i :: is => ok s i ∧ Admits ok (step s i).2 is

instance decidableAdmits (ok : σ → ι → Prop) [∀ s i, Decidable (ok s i)] :
    ∀ (s : σ) (is : List ι), Decidable (Admits step ok s is)
  | _, [] => isTrue trivial
  | s, i :: is =>
    have := decidableAdmits ok (step s i).2 is
    inferInstanceAs (Decidable (ok s i ∧ Admits step ok (step s i).2 is))

variable {step}

@[simp] theorem after_nil (s : σ) : after step s [] = s := rfl

@[simp] theorem after_cons (s : σ) (i : ι) (is : List ι) :
    after step s (i :: is) = after step (step s i).2 is := rfl

@[simp] theorem after_append (s : σ) (is js : List ι) :
    after step s (is ++ js) = after step (after step s is) js := by
  simp [after]

@[simp] theorem history_nil (s : σ) : history step s [] = [] := rfl

@[simp] theorem history_cons (s : σ) (i : ι) (is : List ι) :
    history step s (i :: is) = (i, (step s i).1) :: history step (step s i).2 is := rfl

@[simp] theorem history_append (s : σ) (is js : List ι) :
    history step s (is ++ js) = history step s is ++ history step (after step s is) js := by
  induction is generalizing s with
  | nil => rfl
  | cons i is ih => simp [ih]

/-- A machine that reads its inputs through a function. -/
theorem after_map {κ : Type*} (f : κ → ι) (s : σ) (is : List κ) :
    after (fun s i => step s (f i)) s is = after step s (is.map f) := by
  induction is generalizing s with
  | nil => rfl
  | cons i is ih => exact ih _

/-- Where a prefix of the history comes from, and the answer after it. -/
theorem history_split {s : σ} {is : List ι} {before after' : List (ι × ο)} {i : ι} {o : ο}
    (h : history step s is = before ++ (i, o) :: after') :
    before = history step s (before.map Prod.fst) ∧
      o = (step (after step s (before.map Prod.fst)) i).1 := by
  induction before generalizing s is with
  | nil =>
    cases is with
    | nil => cases h
    | cons j is =>
      rw [history_cons, List.nil_append, List.cons.injEq, Prod.mk.injEq] at h
      obtain ⟨⟨rfl, rfl⟩, -⟩ := h
      exact ⟨rfl, rfl⟩
  | cons e before ih =>
    cases is with
    | nil => cases h
    | cons j is =>
      rw [history_cons, List.cons_append, List.cons.injEq] at h
      obtain ⟨rfl, hrest⟩ := h
      obtain ⟨hbefore, ho⟩ := ih hrest
      exact ⟨congrArg _ hbefore, ho⟩

/-- The inputs are recorded as they came. -/
theorem map_fst_history (s : σ) (is : List ι) : (history step s is).map Prod.fst = is := by
  induction is generalizing s with
  | nil => rfl
  | cons i is ih => simp [ih]

theorem admits_append {ok : σ → ι → Prop} {s : σ} {is js : List ι} :
    Admits step ok s (is ++ js) ↔ Admits step ok s is ∧ Admits step ok (after step s is) js := by
  induction is generalizing s with
  | nil => simp [Admits]
  | cons i is ih => simp [Admits, ih, and_assoc]

/-- **What one step preserves, every run preserves.** -/
theorem invariant_after {I : σ → Prop} {s : σ} (h₀ : I s)
    (hstep : ∀ s i, I s → I (step s i).2) (is : List ι) : I (after step s is) := by
  induction is generalizing s with
  | nil => exact h₀
  | cons i is ih => exact ih (hstep s i h₀)

/-- **The same for a property that reads the history**, under the guard the
environment keeps. -/
theorem invariant_history_of_admits {ok : σ → ι → Prop} {R : List (ι × ο) → σ → Prop} {s : σ}
    (h₀ : R [] s)
    (hstep : ∀ h s i, ok s i → R h s → R (h ++ [(i, (step s i).1)]) (step s i).2)
    (is : List ι) (hok : Admits step ok s is) :
    R (history step s is) (after step s is) := by
  induction is using List.reverseRecOn with
  | nil => exact h₀
  | append_singleton is i ih =>
    obtain ⟨hpre, hi, -⟩ := admits_append.mp hok
    simpa using hstep _ _ i hi (ih hpre)

theorem admits_of_forall {ok : σ → ι → Prop} (h : ∀ s i, ok s i) (s : σ) (is : List ι) :
    Admits step ok s is := by
  induction is generalizing s with
  | nil => trivial
  | cons i is ih => exact ⟨h s i, ih _⟩

/-- **The same for a property that reads the history.** -/
theorem invariant_history {R : List (ι × ο) → σ → Prop} {s : σ} (h₀ : R [] s)
    (hstep : ∀ h s i, R h s → R (h ++ [(i, (step s i).1)]) (step s i).2) (is : List ι) :
    R (history step s is) (after step s is) :=
  invariant_history_of_admits h₀ (fun h s i _ => hstep h s i) is
    (admits_of_forall (fun _ _ => trivial) s is)

/-- **What every input of a kind makes smaller bounds the runs of this kind.** -/
theorem length_add_le_of_decreasing {ok : σ → ι → Prop} {I : σ → Prop} {μ : σ → ℕ}
    (hstep : ∀ s i, I s → ok s i → I (step s i).2 ∧ μ (step s i).2 < μ s) {s : σ} (hs : I s)
    {is : List ι} (hok : Admits step ok s is) :
    I (after step s is) ∧ is.length + μ (after step s is) ≤ μ s := by
  induction is generalizing s with
  | nil => exact ⟨hs, by simp⟩
  | cons i is ih =>
    obtain ⟨hI, hlt⟩ := hstep s i hs hok.1
    obtain ⟨hend, hle⟩ := ih hI hok.2
    refine ⟨hend, ?_⟩
    rw [after_cons, List.length_cons]
    omega

theorem Admits.imp {ok ok' : σ → ι → Prop} (himp : ∀ s i, ok s i → ok' s i) {s : σ} {is : List ι}
    (h : Admits step ok s is) : Admits step ok' s is := by
  induction is generalizing s with
  | nil => trivial
  | cons i is ih => exact ⟨himp s i h.1, ih h.2⟩

theorem Admits.and_mem {ok : σ → ι → Prop} {P : ι → Prop} {s : σ} {is : List ι}
    (h : Admits step ok s is) (hmem : ∀ i ∈ is, P i) :
    Admits step (fun s i => ok s i ∧ P i) s is := by
  induction is generalizing s with
  | nil => trivial
  | cons i is ih =>
    rw [List.forall_mem_cons] at hmem
    exact ⟨⟨h.1, hmem.1⟩, ih h.2 hmem.2⟩

/-- **The lockstep rule.** Two runs on the same inputs get the same answers when a
relation between their states is kept by every input, with the same answer. -/
theorem history_eq_of_lockstep {ok : σ → ι → Prop} {R : σ → σ → Prop}
    (hstep : ∀ s s' i, ok s i → R s s' →
      (step s i).1 = (step s' i).1 ∧ R (step s i).2 (step s' i).2)
    {s s' : σ} (hR : R s s') (is : List ι) (hok : Admits step ok s is) :
    history step s is = history step s' is ∧ R (after step s is) (after step s' is) := by
  induction is generalizing s s' with
  | nil => exact ⟨rfl, hR⟩
  | cons i is ih =>
    obtain ⟨hreply, hR'⟩ := hstep s s' i hok.1 hR
    obtain ⟨hrest, hend⟩ := ih hR' hok.2
    exact ⟨by rw [history_cons, history_cons, hreply, hrest], hend⟩

/-- **The two-run rule.** A run and the run of some of its inputs alone give these
inputs the same answers, when a relation between their states is kept by an input
both runs have, with the same answer, and by one only the first run has. -/
theorem filter_history_eq {ok : σ → ι → Prop} {R : σ → σ → Prop} (keep : ι → Bool)
    (hboth : ∀ s s' i, ok s i → R s s' → keep i = true →
      (step s i).1 = (step s' i).1 ∧ R (step s i).2 (step s' i).2)
    (hskip : ∀ s s' i, ok s i → R s s' → keep i = false → R (step s i).2 s')
    {s s' : σ} (hR : R s s') (is : List ι) (hok : Admits step ok s is) :
    (history step s is).filter (fun e => keep e.1) = history step s' (is.filter keep) := by
  induction is generalizing s s' with
  | nil => rfl
  | cons i is ih =>
    rw [history_cons]
    rcases hkeep : keep i with _ | _
    · rw [List.filter_cons_of_neg (by simp [hkeep]), List.filter_cons_of_neg (by simp [hkeep])]
      exact ih (hskip s s' i hok.1 hR hkeep) hok.2
    · obtain ⟨hreply, hR'⟩ := hboth s s' i hok.1 hR hkeep
      rw [List.filter_cons_of_pos (by simp [hkeep]), List.filter_cons_of_pos (by simp [hkeep]),
        history_cons, hreply, ih hR' hok.2]

/-! ### Machines that may get stuck -/

/-- The run of a machine that may get stuck: the history of the inputs and the last
state, if there is one. -/
def run {τ : Type*} (step' : τ → ι → Option (ο × τ)) (t : τ) :
    List ι → Option (List (ι × ο) × τ)
  | [] => some ([], t)
  | i :: is => (step' t i).bind fun r =>
    (run step' r.2 is).map fun rest => ((i, r.1) :: rest.1, rest.2)

/-- **The simulation rule.** A machine that answers as another one does, in states that
stand for the states of the other, never gets stuck and has the same history – on the
inputs that keep the rules, if there are any. -/
theorem run_of_simulation {τ : Type*} {step' : τ → ι → Option (ο × τ)} {R : τ → σ → Prop}
    {P : ι → Prop}
    (hstep : ∀ t s i, P i → R t s →
      ∃ t', step' t i = some ((step s i).1, t') ∧ R t' (step s i).2)
    {t : τ} {s : σ} (hR : R t s) (is : List ι) (his : ∀ i ∈ is, P i) :
    ∃ t', run step' t is = some (history step s is, t') ∧ R t' (after step s is) := by
  induction is generalizing t s with
  | nil => exact ⟨t, rfl, hR⟩
  | cons i is ih =>
    obtain ⟨hi, his⟩ := List.forall_mem_cons.mp his
    obtain ⟨t₁, hone, hR₁⟩ := hstep t s i hi hR
    obtain ⟨t₂, hrest, hR₂⟩ := ih hR₁ his
    refine ⟨t₂, ?_, hR₂⟩
    simp only [run, hone, hrest, Option.bind_some, Option.map_some, history_cons]

end StepMachine
