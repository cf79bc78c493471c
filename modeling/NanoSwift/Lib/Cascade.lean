import NanoSwift.Lib.Outcome
import Mathlib.Tactic

/-!
# Cascades of checks

A validator runs checks in a row. The first that does not pass gives its verdict
as the result, unless it traps; if all pass, the validator does its work
(`Cascade.Ends`).

A check is there to ensure a requirement, and may miss it: what passes need not
be as required. `Cascade.Expected` is the result of a validator that misses
nothing: the verdict of the first requirement that is not met.
`expected_iff_not_misses` says when a validator gives it: unless the first
requirement that is not met is missed by its check, and a result is returned all
the same (`Cascade.Misses`).
-/

variable {ρ : Type}

/-- A check of a validator with the results `ρ`. -/
structure Check (ρ : Type) where
  /-- What the check is there to ensure. -/
  required : Prop
  /-- When the check lets the validator go on. -/
  passes : Prop
  /-- When the check traps. -/
  traps : Prop
  /-- The result if the check neither passes nor traps. -/
  verdict : ρ
  /-- Nothing required is refused. -/
  passes_of_required : required → passes
  not_traps : passes → ¬traps

namespace Cascade

/-- A cascade whose work ends as `finish` ends as `o`. -/
inductive Ends (finish : Outcome Never ρ) : List (Check ρ) → Outcome Never ρ → Prop
  | done : Ends finish [] finish
  | pass {c : Check ρ} {cs : List (Check ρ)} {o : Outcome Never ρ} :
      c.passes → Ends finish cs o → Ends finish (c :: cs) o
  | refuse {c : Check ρ} {cs : List (Check ρ)} :
      ¬c.passes → ¬c.traps → Ends finish (c :: cs) (.returns c.verdict)
  | trap {c : Check ρ} {cs : List (Check ρ)} {t : Trap} :
      c.traps → Ends finish (c :: cs) (.traps t)

/-- The result `r` is right: the verdict on the first requirement that is not
    met, or `good` if all are. -/
def Expected (good : ρ → Prop) : List (Check ρ) → ρ → Prop
  | [], r => good r
  | c :: cs, r => (c.required ∧ Expected good cs r) ∨ (¬c.required ∧ r = c.verdict)

/-- The cascade returns: no check traps before one refuses. -/
def Completes : List (Check ρ) → Prop
  | [] => True
  | c :: cs => (c.passes ∧ Completes cs) ∨ (¬c.passes ∧ ¬c.traps)

/-- The cascade comes to a check that traps. -/
def ReachesTrap : List (Check ρ) → Prop
  | [] => False
  | c :: cs => c.traps ∨ (c.passes ∧ ReachesTrap cs)

/-- The check of the first requirement that is not met passes, and the cascade
    returns. -/
def Misses : List (Check ρ) → Prop
  | [] => False
  | c :: cs => (c.required ∧ Misses cs) ∨ (¬c.required ∧ c.passes ∧ Completes cs)

variable {finish : Outcome Never ρ} {good : ρ → Prop} {cs : List (Check ρ)} {o : Outcome Never ρ}

theorem completes_of_passes (hp : ∀ c ∈ cs, c.passes) : Completes cs := by
  induction cs with
  | nil => trivial
  | cons c cs ih =>
    exact .inl ⟨hp c List.mem_cons_self, ih fun c' hc' => hp c' (List.mem_cons_of_mem _ hc')⟩

/-- A cascade that returns gives the result of its work or a verdict. -/
theorem Ends.returns_of_completes {r₀ : ρ} (h : Ends (.returns r₀) cs o) (hc : Completes cs) :
    ∃ r, o = .returns r ∧ (r = r₀ ∨ ∃ c ∈ cs, r = c.verdict) := by
  induction h with
  | done => exact ⟨r₀, rfl, .inl rfl⟩
  | @pass c cs o hp _ ih =>
    obtain ⟨r, rfl, hr⟩ := ih ((hc.resolve_right fun h => h.1 hp).2)
    exact ⟨r, rfl, hr.imp_right fun ⟨c', hc', h⟩ => ⟨c', List.mem_cons_of_mem _ hc', h⟩⟩
  | @refuse c cs _ _ => exact ⟨_, rfl, .inr ⟨c, List.mem_cons_self, rfl⟩⟩
  | @trap c cs t ht =>
    exact hc.elim (fun h => absurd ht (c.not_traps h.1)) fun h => absurd ht h.2

theorem Ends.completes {r : ρ} (h : Ends finish cs (.returns r)) : Completes cs := by
  generalize ho : Outcome.returns r = o at h
  induction h with
  | done => trivial
  | pass hp _ ih => exact .inl ⟨hp, ih ho⟩
  | refuse hp ht => exact .inr ⟨hp, ht⟩
  | trap ht => cases ho

theorem completes_iff_not_reachesTrap : Completes cs ↔ ¬ReachesTrap cs := by
  induction cs with
  | nil => exact iff_of_true trivial not_false
  | cons c cs ih =>
    by_cases hp : c.passes
    · simp only [Completes, ReachesTrap, hp, c.not_traps hp, true_and, not_true, false_and,
        or_false, false_or, ih]
    · simp only [Completes, ReachesTrap, hp, false_and, not_false_eq_true, true_and, or_false,
        false_or]

/-- Where its work returns, a cascade returns if and only if it comes to no check that
    traps. -/
theorem Ends.exists_returns_iff {r₀ : ρ} (h : Ends (.returns r₀) cs o) :
    (∃ r, o = .returns r) ↔ ¬ReachesTrap cs := by
  rw [← completes_iff_not_reachesTrap]
  refine ⟨?_, fun hc => ?_⟩
  · rintro ⟨r, rfl⟩
    exact h.completes
  · obtain ⟨r, hr, _⟩ := h.returns_of_completes hc
    exact ⟨r, hr⟩

/-- Where the result is no verdict, all checks passed. -/
theorem Ends.passes {r : ρ} (h : Ends finish cs (.returns r)) (hr : ∀ c ∈ cs, r ≠ c.verdict) :
    ∀ c ∈ cs, c.passes := by
  generalize ho : Outcome.returns r = o at h
  induction h with
  | done => exact fun _ hc => absurd hc List.not_mem_nil
  | pass hp _ ih =>
    exact List.forall_mem_cons.2 ⟨hp, ih (fun c hc => hr c (List.mem_cons_of_mem _ hc)) ho⟩
  | refuse hp _ => exact absurd (Outcome.returns.inj ho) (hr _ List.mem_cons_self)
  | trap ht => cases ho

/-- A validator gives the right result, whenever it returns, if and only if it
    misses nothing. -/
theorem expected_iff_not_misses {r₀ : ρ} (h : Ends (.returns r₀) cs o) (hgood : good r₀)
    (hbad : ∀ c ∈ cs, ¬good c.verdict) (hnodup : (cs.map Check.verdict).Nodup) :
    (∀ r, o = .returns r → Expected good cs r) ↔ ¬Misses cs := by
  induction h with
  | done => exact ⟨fun _ => id, by rintro - r ⟨⟩; exact hgood⟩
  | @pass c cs o hp hends ih =>
    rw [List.map_cons, List.nodup_cons] at hnodup
    have hih := ih (fun c' hc' => hbad c' (List.mem_cons_of_mem _ hc')) hnodup.2
    by_cases hreq : c.required
    · simp only [Expected, Misses, hreq, true_and, not_true, false_and, or_false]
      exact hih
    · simp only [Expected, Misses, hreq, false_and, not_false_eq_true, true_and, false_or, hp]
      refine ⟨fun hall hcompl => ?_, fun hno r hr => ?_⟩
      · -- A later verdict, or the result of the work, is not the verdict of this check.
        obtain ⟨r, rfl, hr⟩ := hends.returns_of_completes hcompl
        have hv := hall r rfl
        rcases hr with rfl | ⟨c', hc', rfl⟩
        · exact hbad c List.mem_cons_self (hv ▸ hgood)
        · exact hnodup.1 (hv ▸ List.mem_map_of_mem hc')
      · -- The check is passed, and nothing returns after it.
        subst hr
        exact absurd hends.completes hno
  | @refuse c cs hp ht =>
    -- A check that refuses does not miss its requirement, and gives its verdict.
    have hreq : ¬c.required := fun h => hp (c.passes_of_required h)
    refine ⟨fun _ hm => hm.elim (fun h => hreq h.1) fun h => hp h.2.1, ?_⟩
    rintro - r ⟨⟩
    exact .inr ⟨hreq, rfl⟩
  | @trap c cs t ht =>
    have hp : ¬c.passes := fun h => c.not_traps h ht
    exact ⟨fun _ hm => hm.elim (fun h => hp (c.passes_of_required h.1)) fun h => hp h.2.1,
      by rintro - r ⟨⟩⟩

/-- Where nothing is missed, what passes all checks is as required. -/
theorem required_of_not_misses (hm : ¬Misses cs) (hp : ∀ c ∈ cs, c.passes) :
    ∀ c ∈ cs, c.required := by
  induction cs with
  | nil => exact fun _ hc => absurd hc List.not_mem_nil
  | cons c cs ih =>
    have hp' : ∀ c' ∈ cs, c'.passes := fun c' hc' => hp c' (List.mem_cons_of_mem _ hc')
    -- If the requirement were not met, its check, which passes, would miss it.
    have hreq : c.required := by
      by_contra hreq
      exact hm (.inr ⟨hreq, hp c List.mem_cons_self, completes_of_passes hp'⟩)
    exact List.forall_mem_cons.2 ⟨hreq, ih (fun h => hm (.inl ⟨hreq, h⟩)) hp'⟩

end Cascade
