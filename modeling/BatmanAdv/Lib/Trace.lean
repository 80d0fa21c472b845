import Mathlib.Data.List.Induction

/-!
# Runs of a step function

A run of `step : σ → ε → Option σ` is recorded together with the state every event was taken in,
so that a property of a run can speak about each step and about everything that happened before
it. The rules below are the ones an invariant over runs needs: preservation, preservation under a
condition on the steps, and the exact form in which the condition is also necessary.
-/

namespace Transition

variable {σ ε : Type*} (step : σ → ε → Option σ)

/-- `Trace step s tr t`: a run from `s` to `t`; `tr` lists, oldest first, every event with the
state it was taken in. -/
inductive Trace (s : σ) : List (σ × ε) → σ → Prop
  | nil : Trace s [] s
  | snoc {tr : List (σ × ε)} {t : σ} {e : ε} {u : σ} (run : Trace s tr t)
      (hstep : step t e = some u) : Trace s (tr ++ [(t, e)]) u

/-- The run of the events `es`. -/
def exec (s : σ) : List ε → Option (List (σ × ε) × σ)
  | [] => some ([], s)
  | e :: es => (step s e).bind fun u => (exec u es).map fun r => ((s, e) :: r.1, r.2)

/-- `P` holds at the end of a run, and at the end of each part of it from its start. -/
def Throughout (P : List (σ × ε) → σ → Prop) (tr : List (σ × ε)) (t : σ) : Prop :=
  P tr t ∧ ∀ pre x post, tr = pre ++ x :: post → P pre x.1

variable {step}

/-- The last three elements, with what is decided about them. -/
def lastThree {α : Type*} (q : α → α → α → Bool) (l : List α) : Bool :=
  match l.reverse with
  | y :: z :: x :: _ => q x z y
  | _ => false

theorem exists_of_lastThree {α : Type*} {q : α → α → α → Bool} {l : List α}
    (h : lastThree q l = true) : ∃ a x z y, l = a ++ x :: ([z] ++ [y]) ∧ q x z y = true := by
  unfold lastThree at h
  split at h
  · next y z x r hrev =>
    refine ⟨r.reverse, x, z, y, ?_, h⟩
    rw [← l.reverse_reverse, hrev]
    simp
  · cases h

theorem Throughout.states {P : List (σ × ε) → σ → Prop} {Q : σ → Prop} {tr : List (σ × ε)} {t : σ}
    (h : Throughout P tr t) (hPQ : ∀ pre u, P pre u → Q u) : (∀ x ∈ tr, Q x.1) ∧ Q t := by
  refine ⟨fun x hx => ?_, hPQ tr t h.1⟩
  obtain ⟨pre, post, hsplit⟩ := List.append_of_mem hx
  exact hPQ pre x.1 (h.2 pre x post hsplit)

namespace Trace

theorem cons {s u v : σ} {tr : List (σ × ε)} {e : ε} (hstep : step s e = some u)
    (h : Trace step u tr v) : Trace step s ((s, e) :: tr) v := by
  induction h with
  | nil => exact Trace.nil.snoc hstep
  | snoc _ hlast ih => exact ih.snoc hlast

theorem of_exec {s t : σ} {es : List ε} {tr : List (σ × ε)} (h : exec step s es = some (tr, t)) :
    Trace step s tr t ∧ tr.map Prod.snd = es := by
  induction es generalizing s tr with
  | nil =>
    obtain ⟨rfl, rfl⟩ := Prod.mk.inj (Option.some.inj h)
    exact ⟨Trace.nil, rfl⟩
  | cons e es ih =>
    obtain ⟨u, hu, hrest⟩ := Option.bind_eq_some_iff.mp h
    obtain ⟨⟨tr', t'⟩, hexec, hr⟩ := Option.map_eq_some_iff.mp hrest
    obtain ⟨rfl, rfl⟩ := Prod.mk.inj hr
    obtain ⟨hrun, hevents⟩ := ih hexec
    exact ⟨Trace.cons hu hrun, congrArg (e :: ·) hevents⟩

theorem exists_of_exec {s : σ} {es : List ε} {q : List (σ × ε) → σ → Bool}
    (h : (exec step s es).any (fun r => q r.1 r.2) = true) :
    ∃ tr t, Trace step s tr t ∧ tr.map Prod.snd = es ∧ q tr t = true := by
  cases hexec : exec step s es with
  | none => simp [hexec] at h
  | some r =>
    obtain ⟨hrun, hevents⟩ := of_exec hexec
    exact ⟨r.1, r.2, hrun, hevents, by simpa [hexec] using h⟩

theorem split {s v : σ} {a b : List (σ × ε)} {x : σ × ε}
    (h : Trace step s (a ++ x :: b) v) :
    Trace step s a x.1 ∧ ∃ u, step x.1 x.2 = some u ∧ Trace step u b v := by
  induction b using List.reverseRecOn generalizing v with
  | nil =>
    generalize htr : a ++ [x] = tr at h
    cases h with
    | nil => simp at htr
    | snoc run hstep =>
      obtain ⟨rfl, hx⟩ := List.append_inj' htr rfl
      obtain rfl : x = (_, _) := List.singleton_inj.mp hx
      exact ⟨run, _, hstep, Trace.nil⟩
  | append_singleton b y ih =>
    generalize htr : a ++ x :: (b ++ [y]) = tr at h
    cases h with
    | nil => simp at htr
    | snoc run hstep =>
      rw [← List.cons_append, ← List.append_assoc] at htr
      obtain ⟨rfl, hy⟩ := List.append_inj' htr rfl
      obtain rfl : y = (_, _) := List.singleton_inj.mp hy
      obtain ⟨hpre, u, hu, hpost⟩ := ih run
      exact ⟨hpre, u, hu, hpost.snoc hstep⟩

theorem throughout {P : List (σ × ε) → σ → Prop} {s t : σ} {tr : List (σ × ε)} (h : Trace step s tr t)
    (hP : ∀ pre u, Trace step s pre u → pre ⊆ tr → P pre u) : Throughout P tr t := by
  refine ⟨hP tr t h (List.Subset.refl tr), ?_⟩
  rintro pre x post rfl
  exact hP pre x.1 h.split.1 (List.subset_append_left pre (x :: post))

theorem head_eq {s v : σ} {x : σ × ε} {b : List (σ × ε)} (h : Trace step s (x :: b) v) : x.1 = s := by
  obtain ⟨hpre, _⟩ := split (a := []) h
  generalize htr : ([] : List (σ × ε)) = tr at hpre
  cases hpre with
  | nil => rfl
  | snoc run hstep => simp at htr

/-- **Invariance under a condition.** `I` may read the run so far; it holds at the end of every run
whose steps all meet `G`. -/
theorem invariant_of_good {I : List (σ × ε) → σ → Prop} {G : List (σ × ε) → σ → ε → Prop} {s t : σ}
    {tr : List (σ × ε)} (h : Trace step s tr t) (h0 : I [] s)
    (hstep : ∀ pre t e u, I pre t → G pre t e → step t e = some u → I (pre ++ [(t, e)]) u)
    (hgood : ∀ pre x post, tr = pre ++ x :: post → G pre x.1 x.2) : I tr t := by
  induction h with
  | nil => exact h0
  | @snoc tr t e u run hlast ih =>
    refine hstep tr t e u (ih fun pre x post heq => ?_) (hgood tr (t, e) [] rfl) hlast
    exact hgood pre x (post ++ [(t, e)]) (by rw [heq, List.append_assoc, List.cons_append])

/-- **Invariance.** -/
theorem invariant {I : List (σ × ε) → σ → Prop} {s t : σ} {tr : List (σ × ε)}
    (h : Trace step s tr t) (h0 : I [] s)
    (hstep : ∀ pre t e u, I pre t → step t e = some u → I (pre ++ [(t, e)]) u) : I tr t :=
  h.invariant_of_good h0 (fun pre t e u hI (_ : True) => hstep pre t e u hI)
    fun _ _ _ _ => trivial

/-- An invariant that does not read the run holds in every state along it. -/
theorem state_invariant {I : σ → Prop} {s t : σ} {tr : List (σ × ε)} (h : Trace step s tr t)
    (h0 : I s) (hstep : ∀ t e u, I t → step t e = some u → I u) : (∀ x ∈ tr, I x.1) ∧ I t := by
  induction h with
  | nil => exact ⟨by simp, h0⟩
  | snoc run hlast ih =>
    obtain ⟨hpre, ht⟩ := ih
    refine ⟨fun x hx => ?_, hstep _ _ _ ht hlast⟩
    rcases List.mem_append.mp hx with hx | hx
    · exact hpre x hx
    · obtain rfl := List.mem_singleton.mp hx
      exact ht

theorem first {P : σ → Prop} {s t : σ} {tr : List (σ × ε)} (h : Trace step s tr t)
    (hP : (∀ x ∈ tr, P x.1) ∧ P t) : P s := by
  induction h with
  | nil => exact hP.2
  | @snoc tr t e u run hlast ih =>
    exact ih ⟨fun x hx => hP.1 x (List.mem_append_left _ hx), hP.1 (t, e) (by simp)⟩

/-- **Exact condition.** If every step from a state with `P` leads to a state with `P` exactly when
it meets `G` (`A` being known in every state), then `P` holds all along a run exactly when every
step of the run meets `G`. -/
theorem forall_iff_good {A P : σ → Prop} {G : σ → ε → Prop} {s t : σ} {tr : List (σ × ε)}
    (h : Trace step s tr t) (hA0 : A s) (hA : ∀ t e u, A t → step t e = some u → A u) (hP0 : P s)
    (hstep : ∀ t e u, A t → P t → step t e = some u → (P u ↔ G t e)) :
    ((∀ x ∈ tr, P x.1) ∧ P t) ↔ ∀ x ∈ tr, G x.1 x.2 := by
  induction h with
  | nil => simp [hP0]
  | @snoc tr t e u run hlast ih =>
    have hAt : A t := (run.state_invariant hA0 hA).2
    constructor
    · rintro ⟨hpre, hu⟩ x hx
      have hPt : P t := hpre (t, e) (by simp)
      rcases List.mem_append.mp hx with hx | hx
      · exact ih.mp ⟨fun y hy => hpre y (List.mem_append_left _ hy), hPt⟩ x hx
      · obtain rfl := List.mem_singleton.mp hx
        exact (hstep t e u hAt hPt hlast).mp hu
    · intro hgood
      obtain ⟨hpre, hPt⟩ := ih.mpr fun x hx => hgood x (List.mem_append_left _ hx)
      refine ⟨fun x hx => ?_, (hstep t e u hAt hPt hlast).mpr (hgood (t, e) (by simp))⟩
      rcases List.mem_append.mp hx with hx | hx
      · exact hpre x hx
      · obtain rfl := List.mem_singleton.mp hx
        exact hPt

/-- **Exact condition, with a companion.** `Q` is known wherever `P` has held so far. -/
theorem forall_iff_good_of_companion {A P Q : σ → Prop} {G : σ → ε → Prop} {s t : σ} {tr : List (σ × ε)}
    (h : Trace step s tr t) (hA0 : A s) (hA : ∀ t e u, A t → step t e = some u → A u) (hP0 : P s)
    (hQ0 : Q s)
    (hstep : ∀ t e u, A t → P t → Q t → step t e = some u → (P u ↔ G t e) ∧ (P u → Q u)) :
    ((∀ x ∈ tr, P x.1) ∧ P t) ↔ ∀ x ∈ tr, G x.1 x.2 := by
  have hboth := h.forall_iff_good (P := fun t => P t ∧ Q t) (G := G) hA0 hA ⟨hP0, hQ0⟩
    fun t e u hAt hPt hlast => by
      obtain ⟨hiff, hcompanion⟩ := hstep t e u hAt hPt.1 hPt.2 hlast
      exact ⟨fun hu => hiff.mp hu.1, fun hG => ⟨hiff.mpr hG, hcompanion (hiff.mpr hG)⟩⟩
  rw [← hboth]
  refine ⟨fun hP => ?_, fun hPQ => ⟨fun x hx => (hPQ.1 x hx).1, hPQ.2.1⟩⟩
  -- `Q` goes along with `P`
  have hQ : (∀ x ∈ tr, Q x.1) ∧ Q t := by
    clear hboth
    induction h with
    | nil => exact ⟨by simp, hQ0⟩
    | @snoc tr t e u run hlast ih =>
      have hPt : P t := hP.1 (t, e) (by simp)
      obtain ⟨hpre, hQt⟩ := ih ⟨fun x hx => hP.1 x (List.mem_append_left _ hx), hPt⟩
      have hAt : A t := (run.state_invariant hA0 hA).2
      refine ⟨fun x hx => ?_, (hstep t e u hAt hPt hQt hlast).2 hP.2⟩
      rcases List.mem_append.mp hx with hx | hx
      · exact hpre x hx
      · obtain rfl := List.mem_singleton.mp hx
        exact hQt
  exact ⟨fun x hx => ⟨hP.1 x hx, hQ.1 x hx⟩, hP.2, hQ.2⟩

end Trace

end Transition
