import Mathlib.Data.List.Lex
import Mathlib.Data.Prod.Lex

/-! Codes that keep the order of what they encode, whatever stands behind it. Such
codes can be put one behind the other. -/

namespace Enigma

/-- Encodings compare as what they encode, and on equal values as what follows. -/
def KeepsOrder {α β : Type} [LT α] [LT β] (encode : α → List β) : Prop :=
  ∀ left right leftRest rightRest, encode left ++ leftRest < encode right ++ rightRest ↔
    left < right ∨ left = right ∧ leftRest < rightRest

namespace KeepsOrder

variable {α β γ : Type} [LinearOrder α] [LinearOrder β] [LinearOrder γ]

theorem lt_iff {encode : α → List β} (keeps : KeepsOrder encode) (left right : α) :
    encode left < encode right ↔ left < right := by
  have whole := keeps left right [] []
  simpa using whole

theorem injective {encode : α → List β} (keeps : KeepsOrder encode) : Function.Injective encode := by
  intro left right same
  rcases lt_trichotomy left right with less | equal | more
  · exact absurd same (ne_of_lt ((keeps.lt_iff left right).mpr less))
  · exact equal
  · exact absurd same (ne_of_gt ((keeps.lt_iff right left).mpr more))

/-- One code behind another keeps the lexicographic order. -/
theorem append {first : α → List β} {second : γ → List β} (keepsFirst : KeepsOrder first)
    (keepsSecond : KeepsOrder second) :
    KeepsOrder fun pair : α ×ₗ γ => first (ofLex pair).1 ++ second (ofLex pair).2 := by
  intro left right leftRest rightRest
  rw [List.append_assoc, List.append_assoc, keepsFirst, keepsSecond, Prod.Lex.lt_iff]
  constructor
  · rintro (less | ⟨same, less | ⟨equal, rest⟩⟩)
    · exact .inl (.inl less)
    · exact .inl (.inr ⟨same, less⟩)
    · exact .inr ⟨ofLex.injective (Prod.ext same equal), rest⟩
  · rintro ((less | ⟨same, less⟩) | ⟨same, rest⟩)
    · exact .inl less
    · exact .inr ⟨same, .inl less⟩
    · subst same
      exact .inr ⟨rfl, .inr ⟨rfl, rest⟩⟩

end KeepsOrder

end Enigma
