/-
Names are compared without regard to the case of ASCII letters.

Folding maps `A` to `Z` onto `a` to `z` and leaves every other character alone,
so it keeps the number of characters and the number of bytes of a name. Two
names are the same name exactly when they fold to the same string; folding
again changes nothing, which is what makes the folded form usable as a key.
-/

set_option autoImplicit false

namespace ScriptSense

/-- The name with ASCII capitals written small. -/
def foldCase (name : String) : String := String.ofList (name.toList.map Char.toLower)

/-- The name with small ASCII letters written as capitals. -/
def raiseCase (name : String) : String := String.ofList (name.toList.map Char.toUpper)

/-- Both spell one name, up to the case of ASCII letters. -/
def sameName (a b : String) : Bool := foldCase a == foldCase b

@[simp] theorem toList_foldCase (name : String) :
    (foldCase name).toList = name.toList.map Char.toLower := by
  simp [foldCase]

/-- A letter written small is small already. -/
theorem toLower_toLower (c : Char) : c.toLower.toLower = c.toLower := by
  by_cases h : 'A'.val ≤ c.val ∧ c.val ≤ 'Z'.val
  · have hlower : c.toLower.val = c.val + 32 := congrArg Char.val (dif_pos h)
    have hsmall : ¬ ('A'.val ≤ c.toLower.val ∧ c.toLower.val ≤ 'Z'.val) := by
      rw [hlower]
      simp only [UInt32.le_iff_toNat_le, UInt32.toNat_add] at h ⊢
      have hA : 'A'.val.toNat = 65 := rfl
      have hZ : 'Z'.val.toNat = 90 := rfl
      have h32 : (32 : UInt32).toNat = 32 := rfl
      omega
    exact dif_neg hsmall
  · have hkept : c.toLower = c := dif_neg h
    rw [hkept, hkept]

/-- Folding a second time changes nothing. -/
@[simp] theorem foldCase_foldCase (name : String) : foldCase (foldCase name) = foldCase name := by
  rw [foldCase, toList_foldCase, List.map_map]
  exact congrArg String.ofList (List.map_congr_left fun c _ => toLower_toLower c)

theorem sameName_iff (a b : String) : sameName a b = true ↔ foldCase a = foldCase b := by
  simp [sameName]

end ScriptSense
