import LSystem.Proofs.Walk.Outcome

/-! Strokes by depth.

Under an accepted configuration strokes get no longer with the depth of branches, or no shorter,
and at every depth they have a length, which a growing one can lose to infinity
(`lengthAtDepth_monotone`). From the depth on at which it does, no branch is opened any more; a
reduction from one up leaves no such depth, so a walk that its configuration allows is not stopped
for the configuration later on (`walk_ne_invalidConfig`). -/
namespace LSystem.Walk

namespace Config
variable {config : Config}

/-- Below a depth without a finite length there is none with one. -/
theorem not_isFinite_lengthAtDepth (hvalid : config.validate = .ok ()) {d e : Nat} (h : d ≤ e)
    (hinfinite : (config.lengthAtDepth d).isFinite = false) :
    (config.lengthAtDepth e).isFinite = false := by
  rcases reduction_total hvalid with hup | hdown
  · rw [lengthAtDepth_isFinite hvalid hup d] at hinfinite
    cases hinfinite
  · rw [Bool.eq_false_iff]
    intro hfinite
    have hback := (extent_lengthAtDepth hvalid d).isFinite_of_le (extent_lengthAtDepth hvalid e)
      (le_lengthAtDepth hvalid hdown h) hfinite
    rw [hinfinite] at hback
    cases hback

end Config

namespace Interpretation

/-- With a reduction from one up no branch is refused for its stroke length. -/
theorem walk_ne_invalidConfig {interpretation : Interpretation}
    (hvalid : interpretation.config.validate = .ok ())
    (hreduction : Binary.le 1 interpretation.config.reduction = true) (grammar : Grammar) (word : Word)
    (fault : ConfigFault) :
    (interpretation.walk grammar word).result ≠ .error (.invalidConfig fault) := by
  intro hresult
  obtain ⟨read, symbol, rest, mid, -, -, hstop⟩ := stops_of_error hvalid hresult
  rcases fault?_eq_some_iff.mp hstop with ⟨-, -, h⟩ | ⟨-, -, h⟩ | ⟨-, -, hinfinite, -⟩
  · cases h
  · cases h
  · rw [Config.lengthAtDepth_isFinite hvalid hreduction] at hinfinite
    cases hinfinite

end Interpretation

namespace Config

/-- **Strokes are in the order of their depths.** Under an accepted configuration the length at every
depth is a number that is not below zero, the same at all depths from the limit of exponents on. With
a reduction from one up lengths fall with the depth from the length of the configuration, with one up
to one they rise from it, if need be to infinity. So no depth below one without a finite length has
one, and with a reduction from one up all depths have one and no walk is stopped for its
configuration. -/
theorem lengthAtDepth_monotone {config : Config} (hvalid : config.validate = .ok ()) :
    let length := config.lengthAtDepth
    (∀ depth, length depth ≠ .nan ∧ (length depth).lt 0 = false) ∧
    (∀ depth, exponentLimit ≤ depth → length depth = length exponentLimit) ∧
    (Binary.le 1 config.reduction = true → ∀ d e, d ≤ e →
      Binary.le (length e) (length d) = true ∧ Binary.le (length d) config.length = true) ∧
    (Binary.le config.reduction 1 = true → ∀ d e, d ≤ e →
      Binary.le config.length (length d) = true ∧ Binary.le (length d) (length e) = true) ∧
    (∀ d e, d ≤ e → (length d).isFinite = false → (length e).isFinite = false) ∧
    (Binary.le 1 config.reduction = true → (∀ depth, (length depth).isFinite = true) ∧
      ∀ (interpretation : Interpretation) (grammar : Grammar) (word : Word) (fault : ConfigFault),
        interpretation.config = config →
          (interpretation.walk grammar word).result ≠ .error (.invalidConfig fault)) := by
  intro length
  have hzero : length 0 = config.length := lengthAtDepth_zero hvalid
  refine ⟨fun depth => ?_, fun depth hdepth => ?_, fun hup d e h => ?_, fun hdown d e h => ?_,
    fun d e h => not_isFinite_lengthAtDepth hvalid h, fun hup => ⟨?_, ?_⟩⟩
  · have hextent := extent_lengthAtDepth hvalid depth
    exact ⟨hextent.ne_nan, hextent.not_lt_zero⟩
  · simp only [length, lengthAtDepth, Nat.min_eq_right hdepth, Nat.min_self]
  · rw [← hzero]
    exact ⟨lengthAtDepth_le hvalid hup h, lengthAtDepth_le hvalid hup (Nat.zero_le d)⟩
  · rw [← hzero]
    exact ⟨le_lengthAtDepth hvalid hdown (Nat.zero_le d), le_lengthAtDepth hvalid hdown h⟩
  · exact lengthAtDepth_isFinite hvalid hup
  · rintro interpretation grammar word fault rfl
    exact Interpretation.walk_ne_invalidConfig hvalid hup grammar word fault

/-- Lengths that are halved, and lengths that are doubled, at the largest depth a machine word holds. -/
theorem lengthAtDepth_halves_doubles :
    let halved : Config := { length := 8, reduction := 2 }
    let doubled : Config := { length := 8, reduction := .ofRatio false 1 2 }
    halved.validate = .ok () ∧ doubled.validate = .ok () ∧
      Binary.le (halved.lengthAtDepth (0xffffffffffffffff)) (halved.lengthAtDepth 2) = true ∧
      Binary.le (doubled.lengthAtDepth 2) (doubled.lengthAtDepth (0xffffffffffffffff)) = true ∧
      (doubled.lengthAtDepth 125).isFinite = false ∧
      (doubled.lengthAtDepth (0xffffffffffffffff)).isFinite = false := by
  intro halved doubled
  have hhalved : halved.validate = .ok () := validate_eq_ok_iff.mpr (by decide +kernel)
  have hdoubled : doubled.validate = .ok () := validate_eq_ok_iff.mpr (by decide +kernel)
  have hlost : (doubled.lengthAtDepth 125).isFinite = false := by decide +kernel
  obtain ⟨-, -, hfall, -, -, -⟩ := lengthAtDepth_monotone hhalved
  obtain ⟨-, -, -, hrise, hclosed, -⟩ := lengthAtDepth_monotone hdoubled
  exact ⟨hhalved, hdoubled, (hfall (by decide +kernel) 2 _ (by decide)).1,
    (hrise (by decide +kernel) 2 _ (by decide)).2, hlost, hclosed 125 _ (by decide) hlost⟩

end Config

end LSystem.Walk
