import Mathlib.Data.List.Basic

/-!
# Runs of a step function with outputs

A step function `σ → ι → σ × ο` consumes one input and answers with the next
state and an output. `run` folds it over a list of inputs, `Along Q` says that
`Q` holds of every state the run passes through and the input it meets there.
The rules: an invariant that each step keeps under a guard holds at the end of
a guarded run (`final_inv`), gives a property of every step (`along_of_inv`) or of
every output (`outs_of_inv`), and makes two properties hold along the same runs
(`along_congr`); a machine that stands still or latches is latched by the first input
that moves it (`final_latched`); two machines that keep a relation have the properties
it carries together (`along_sim`); what is kept beside a machine changes neither its
states (`final_map`) nor their properties (`along_withHistory`).
-/

namespace Steps

universe u v w

variable {σ : Type u} {ι : Type v} {ο : Type w}

def run (step : σ → ι → σ × ο) : σ → List ι → σ × List ο
  | s, [] => (s, [])
  | s, i :: is => ((run step (step s i).1 is).1, (step s i).2 :: (run step (step s i).1 is).2)

def final (step : σ → ι → σ × ο) (s : σ) (is : List ι) : σ := (run step s is).1

def outs (step : σ → ι → σ × ο) (s : σ) (is : List ι) : List ο := (run step s is).2

/-- `Q` holds at every state of the run, of the input met there. -/
def Along (step : σ → ι → σ × ο) (Q : σ → ι → Prop) : σ → List ι → Prop
  | _, [] => True
  | s, i :: is => Q s i ∧ Along step Q (step s i).1 is

variable {step : σ → ι → σ × ο} {Q R : σ → ι → Prop} {I : σ → Prop}

@[simp] theorem final_nil (s : σ) : final step s [] = s := rfl

@[simp] theorem final_cons (s : σ) (i : ι) (is : List ι) :
    final step s (i :: is) = final step (step s i).1 is := rfl

@[simp] theorem outs_nil (s : σ) : outs step s [] = [] := rfl

@[simp] theorem outs_cons (s : σ) (i : ι) (is : List ι) :
    outs step s (i :: is) = (step s i).2 :: outs step (step s i).1 is := rfl

@[simp] theorem along_nil (s : σ) : Along step Q s [] := trivial

@[simp] theorem along_cons (s : σ) (i : ι) (is : List ι) :
    Along step Q s (i :: is) ↔ Q s i ∧ Along step Q (step s i).1 is := Iff.rfl

theorem final_append (s : σ) (is js : List ι) :
    final step s (is ++ js) = final step (final step s is) js := by
  induction is generalizing s with
  | nil => rfl
  | cons i is ih => exact ih _

theorem outs_append (s : σ) (is js : List ι) :
    outs step s (is ++ js) = outs step s is ++ outs step (final step s is) js := by
  induction is generalizing s with
  | nil => rfl
  | cons i is ih => simp [ih]

theorem along_append (s : σ) (is js : List ι) :
    Along step Q s (is ++ js) ↔ Along step Q s is ∧ Along step Q (final step s is) js := by
  induction is generalizing s with
  | nil => simp
  | cons i is ih => simp [ih, and_assoc]

theorem Along.imp (h : ∀ s i, Q s i → R s i) {s : σ} {is : List ι} (hq : Along step Q s is) :
    Along step R s is := by
  induction is generalizing s with
  | nil => trivial
  | cons i is ih => exact ⟨h _ _ hq.1, ih hq.2⟩

theorem along_and (s : σ) (is : List ι) :
    Along step (fun s i => Q s i ∧ R s i) s is ↔ Along step Q s is ∧ Along step R s is := by
  induction is generalizing s with
  | nil => simp
  | cons i is ih =>
    rw [along_cons, along_cons, along_cons, ih]
    exact and_and_and_comm

theorem along_outs {P : ο → Prop} {s : σ} {is : List ι} :
    Along step (fun s i => P (step s i).2) s is ↔ ∀ o ∈ outs step s is, P o := by
  induction is generalizing s with
  | nil => simp
  | cons i is ih => rw [along_cons, ih, outs_cons, List.forall_mem_cons]

theorem along_still (o : ο) (s : σ) (is : List ι) :
    Along step (fun s i => step s i = (s, o)) s is ↔ ∀ i ∈ is, step s i = (s, o) := by
  induction is with
  | nil => simp
  | cons i is ih =>
    rw [along_cons, List.forall_mem_cons]
    apply and_congr_right
    intro h
    rw [h]
    exact ih

/-- Every output is that of a step from a state on the way. -/
theorem forall_outs_iff {P : ο → Prop} (s : σ) (is : List ι) :
    (∀ o ∈ outs step s is, P o) ↔
      ∀ js i ks, is = js ++ i :: ks → P (step (final step s js) i).2 := by
  constructor
  · rintro h js i ks rfl
    apply h
    rw [outs_append, outs_cons]
    exact List.mem_append_right _ (List.mem_cons_self ..)
  · intro h
    induction is generalizing s with
    | nil => simp
    | cons i is ih =>
      rw [outs_cons, List.forall_mem_cons]
      refine ⟨h [] i is rfl, ih _ fun js i' ks hks => ?_⟩
      rw [hks] at h
      exact h (i :: js) i' ks rfl

/-- **Invariant rule.** What every step keeps under the guard holds at the end of a guarded run. -/
theorem final_inv (hstep : ∀ s i, I s → Q s i → I (step s i).1) {s : σ} {is : List ι}
    (hs : I s) (hq : Along step Q s is) : I (final step s is) := by
  induction is generalizing s with
  | nil => exact hs
  | cons i is ih => exact ih (hstep s i hs hq.1) hq.2

theorem final_inv_of_step (hstep : ∀ s i, I s → I (step s i).1) {s : σ} (is : List ι)
    (hs : I s) : I (final step s is) := by
  induction is generalizing s with
  | nil => exact hs
  | cons i is ih => exact ih (hstep s i hs)

theorem final_still {o : ο} {s : σ} {is : List ι} (h : ∀ i ∈ is, step s i = (s, o)) :
    final step s is = s := by
  induction is with
  | nil => rfl
  | cons i is ih =>
    rw [List.forall_mem_cons] at h
    rw [final_cons, h.1]
    exact ih h.2

/-- **Latch rule.** A machine that stands still or latches, and then stays latched: one input that
does not leave it as it is latches it. -/
theorem final_latched (hstay : ∀ s i, I s → I (step s i).1) {o : ο} {s : σ}
    (hcase : ∀ i, step s i = (s, o) ∨ I (step s i).1) {is : List ι}
    (h : ∃ i ∈ is, step s i ≠ (s, o)) : I (final step s is) := by
  induction is with
  | nil =>
    obtain ⟨i, hi, -⟩ := h
    cases hi
  | cons i is ih =>
    rw [final_cons]
    rcases hcase i with hstill | hlatch
    · rw [hstill]
      obtain ⟨j, hj, hne⟩ := h
      rcases List.mem_cons.mp hj with rfl | hj
      · exact absurd hstill hne
      · exact ih ⟨j, hj, hne⟩
    · exact final_inv_of_step hstay is hlatch

theorem final_outs_inv_along {J : σ → List ο → Prop}
    (hstep : ∀ s os i, J s os → Q s i → J (step s i).1 (os ++ [(step s i).2])) {s : σ}
    {os : List ο} {is : List ι} (h : J s os) (hq : Along step Q s is) :
    J (final step s is) (os ++ outs step s is) := by
  induction is generalizing s os with
  | nil =>
    rw [outs_nil, List.append_nil]
    exact h
  | cons i is ih =>
    have := ih (hstep s os i h hq.1) hq.2
    rwa [List.append_assoc, List.singleton_append] at this

theorem along_of_forall (h : ∀ s i, Q s i) (s : σ) (is : List ι) : Along step Q s is := by
  induction is generalizing s with
  | nil => trivial
  | cons i is ih => exact ⟨h s i, ih _⟩

theorem along_of_mem {G : ι → Prop} {s : σ} {is : List ι} (h : ∀ i ∈ is, G i) :
    Along step (fun _ i => G i) s is := by
  induction is generalizing s with
  | nil => trivial
  | cons i is ih =>
    obtain ⟨hi, his⟩ := List.forall_mem_cons.mp h
    exact ⟨hi, ih his⟩

theorem final_outs_inv {J : σ → List ο → Prop}
    (hstep : ∀ s os i, J s os → J (step s i).1 (os ++ [(step s i).2])) {s : σ} {os : List ο}
    (h : J s os) (is : List ι) : J (final step s is) (os ++ outs step s is) :=
  final_outs_inv_along (Q := fun _ _ => True) (fun s os i hJ _ => hstep s os i hJ) h
    (along_of_forall (fun _ _ => trivial) s is)

/-- **Step-property rule.** A property that the invariant and the guard give of a step holds of
every step of a guarded run. -/
theorem along_of_inv (hstep : ∀ s i, I s → Q s i → I (step s i).1)
    (hprop : ∀ s i, I s → Q s i → R s i) {s : σ} {is : List ι} (hs : I s)
    (hq : Along step Q s is) : Along step R s is := by
  induction is generalizing s with
  | nil => trivial
  | cons i is ih => exact ⟨hprop s i hs hq.1, ih (hstep s i hs hq.1) hq.2⟩

/-- **Output rule.** What the invariant and the guard give of an output holds of every output of a
guarded run. -/
theorem outs_of_inv {P : ο → Prop} (hstep : ∀ s i, I s → Q s i → I (step s i).1)
    (hprop : ∀ s i, I s → Q s i → P (step s i).2) {s : σ} {is : List ι} (hs : I s)
    (hq : Along step Q s is) : ∀ o ∈ outs step s is, P o :=
  along_outs.mp (along_of_inv hstep hprop hs hq)

/-- **Equivalence rule.** Two properties that are equivalent under an invariant the first one keeps
hold along the same runs. -/
theorem along_congr (hstep : ∀ s i, I s → Q s i → I (step s i).1)
    (hiff : ∀ s i, I s → (Q s i ↔ R s i)) {s : σ} (hs : I s) (is : List ι) :
    Along step Q s is ↔ Along step R s is := by
  induction is generalizing s with
  | nil => exact Iff.rfl
  | cons i is ih =>
    rw [along_cons, along_cons, ← hiff s i hs]
    exact and_congr_right fun hq => ih (hstep s i hs hq)

/-- **Guarded simulation.** Two machines that keep a relation and answer alike along a guarded run
have the same outputs, and end related. -/
theorem outs_sim_along {τ : Type v} {other : τ → ι → τ × ο} {rel : σ → τ → Prop}
    (hstep : ∀ s t i, rel s t → Q s i →
      (step s i).2 = (other t i).2 ∧ rel (step s i).1 (other t i).1)
    {s : σ} {t : τ} (h : rel s t) {is : List ι} (hq : Along step Q s is) :
    outs step s is = outs other t is ∧ rel (final step s is) (final other t is) := by
  induction is generalizing s t with
  | nil => exact ⟨rfl, h⟩
  | cons i is ih =>
    obtain ⟨hout, hnext⟩ := hstep s t i h hq.1
    obtain ⟨houts, hfinal⟩ := ih hnext hq.2
    rw [outs_cons, outs_cons, hout, houts]
    exact ⟨rfl, hfinal⟩

/-- **Simulation.** Two machines that keep a relation and answer alike have the same outputs, and
end related. -/
theorem outs_sim {τ : Type v} {other : τ → ι → τ × ο} {rel : σ → τ → Prop}
    (hstep : ∀ s t i, rel s t → (step s i).2 = (other t i).2 ∧ rel (step s i).1 (other t i).1)
    {s : σ} {t : τ} (h : rel s t) (is : List ι) :
    outs step s is = outs other t is ∧ rel (final step s is) (final other t is) :=
  outs_sim_along (Q := fun _ _ => True) (fun s t i hst _ => hstep s t i hst) h
    (along_of_forall (fun _ _ => trivial) s is)

/-- **Simulation rule.** Two machines that keep a relation: a property it carries over holds along
both runs or along neither. -/
theorem along_sim {τ : Type v} {other : τ → ι → τ × ο} {Q' : τ → ι → Prop} {rel : σ → τ → Prop}
    (hstep : ∀ s t i, rel s t → rel (step s i).1 (other t i).1)
    (hprop : ∀ s t i, rel s t → (Q s i ↔ Q' t i)) {s : σ} {t : τ} (h : rel s t) (is : List ι) :
    Along step Q s is ↔ Along other Q' t is := by
  induction is generalizing s t with
  | nil => exact Iff.rfl
  | cons i is ih =>
    rw [along_cons, along_cons]
    exact and_congr (hprop s t i h) (ih (hstep s t i h))

/-- **Projection rule.** A machine whose states map to those of another step by step ends in a
state that maps to the other's. -/
theorem final_map {τ : Type u} {π : Type w} {other : τ → ι → τ × π} (g : τ → σ)
    (hstep : ∀ t i, g (other t i).1 = (step (g t) i).1) (t : τ) (is : List ι) :
    g (final other t is) = final step (g t) is := by
  induction is generalizing t with
  | nil => rfl
  | cons i is ih => rw [final_cons, final_cons, ih, hstep]

section History

variable {γ : Type u}

/-- The machine with a history variable beside it. -/
def withHistory (step : σ → ι → σ × ο) (record : γ → ι → ο → γ) :
    σ × γ → ι → (σ × γ) × ο :=
  fun sg i => (((step sg.1 i).1, record sg.2 i (step sg.1 i).2), (step sg.1 i).2)

variable {record : γ → ι → ο → γ}

theorem along_withHistory (s : σ) (g : γ) (is : List ι) :
    Along (withHistory step record) (fun sg i => Q sg.1 i) (s, g) is ↔ Along step Q s is := by
  induction is generalizing s g with
  | nil => exact Iff.rfl
  | cons i is ih => exact and_congr_right fun _ => ih _ _

end History

end Steps
