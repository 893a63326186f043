import Firebase.Firestore.Util.OrderedCode

/-!
# Successors of prefixes

`PrefixSuccessor` (`string_util.cc`) is the end of the interval of strings that start with a
prefix.
-/

namespace Firebase.Firestore.Util

open Lib List

/-- The loop of `PrefixSuccessor`, on the string from its last byte on. -/
def successorLoop : Bytes → Bytes
  | [] => []
  | last :: limit => if last = 0xff then successorLoop limit else (last + 1) :: limit

def prefixSuccessor (p : Bytes) : Bytes := (successorLoop p.reverse).reverse

theorem successorLoop_append (limit : Bytes) (x : UInt8) : successorLoop (limit ++ [x]) =
    if successorLoop limit = [] then successorLoop [x] else successorLoop limit ++ [x] := by
  induction limit with
  | nil => rfl
  | cons last limit ih =>
    rw [cons_append, successorLoop, successorLoop]
    by_cases hlast : last = 0xff
    · rw [if_pos hlast, if_pos hlast, ih]
    · rw [if_neg hlast, if_neg hlast, if_neg (cons_ne_nil _ _), cons_append]

/-- The successor from the front: a byte is only incremented if there is nothing to increment
behind it. -/
theorem prefixSuccessor_cons (x : UInt8) (p : Bytes) : prefixSuccessor (x :: p) =
    if prefixSuccessor p = [] then if x = 0xff then [] else [x + 1]
    else x :: prefixSuccessor p := by
  rw [prefixSuccessor, prefixSuccessor, reverse_cons, successorLoop_append]
  by_cases hnil : successorLoop p.reverse = []
  · rw [if_pos hnil, if_pos (reverse_eq_nil_iff.mpr hnil), successorLoop]
    split_ifs <;> rfl
  · rw [if_neg hnil, if_neg (mt reverse_eq_nil_iff.mp hnil), reverse_append, reverse_singleton,
      singleton_append]

theorem prefixSuccessor_eq_nil_iff (p : Bytes) : prefixSuccessor p = [] ↔ ∀ c ∈ p, c = 0xff := by
  induction p with
  | nil => exact ⟨nofun, fun _ => rfl⟩
  | cons x p ih =>
    rw [prefixSuccessor_cons, forall_mem_cons, ← ih]
    split_ifs with hnil hlast
    · exact ⟨fun _ => ⟨hlast, hnil⟩, fun _ => rfl⟩
    · exact ⟨nofun, fun h => absurd h.1 hlast⟩
    · exact ⟨nofun, fun h => absurd h.2 hnil⟩

theorem lt_add_one_iff {x y : UInt8} (hx : x ≠ 0xff) : y < x + 1 ↔ y ≤ x := by
  have hne : x.toNat ≠ 255 := fun h => hx (UInt8.toNat_inj.mp h)
  have hlt := x.toNat_lt
  have hadd : (x + 1).toNat = x.toNat + 1 := by
    rw [UInt8.toNat_add]
    exact Nat.mod_eq_of_lt (by simp; omega)
  rw [UInt8.lt_iff_toNat_lt, UInt8.le_iff_toNat_le, hadd, Nat.lt_succ_iff]

/-- Where there is no successor, the strings from the prefix on are all that start with it. -/
theorem le_and_lt_prefixSuccessor_iff (p s : Bytes) :
    (p ≤ s ∧ (prefixSuccessor p ≠ [] → s < prefixSuccessor p)) ↔ p <+: s := by
  induction p generalizing s with
  | nil => exact ⟨fun _ => nil_prefix, fun _ => ⟨le_of_isPrefixOf nil_prefix, absurd rfl⟩⟩
  | cons x p ih =>
    rw [prefixSuccessor_cons]
    constructor
    · rintro ⟨hle, hlt⟩
      cases s with
      | nil => exact absurd hle (not_le_of_gt (nil_lt_cons x p))
      | cons y s =>
        rcases Lib.cons_le_cons.mp hle with hxy | ⟨rfl, hps⟩
        · have hx : x ≠ 0xff := by
            rintro rfl
            exact not_le_of_gt (UInt8.lt_iff_toNat_lt.mp hxy) (Nat.le_of_lt_succ y.toNat_lt)
          rw [if_neg hx] at hlt
          split_ifs at hlt with hnil
          · rcases cons_lt_cons_iff.mp (hlt (cons_ne_nil _ _)) with hyx | ⟨-, hs⟩
            · exact absurd hxy (not_lt_of_ge ((lt_add_one_iff hx).mp hyx))
            · exact absurd hs (not_lt_nil s)
          · rcases cons_lt_cons_iff.mp (hlt (cons_ne_nil _ _)) with hyx | ⟨rfl, -⟩
            · exact absurd hyx (lt_asymm hxy)
            · exact absurd hxy (lt_irrefl _)
        · refine cons_prefix_cons.mpr ⟨rfl, (ih s).mp ⟨hps, fun hne => ?_⟩⟩
          rw [if_neg hne] at hlt
          rcases cons_lt_cons_iff.mp (hlt (cons_ne_nil _ _)) with hxx | ⟨-, hs⟩
          · exact absurd hxx (lt_irrefl x)
          · exact hs
    · intro hprefix
      refine ⟨le_of_isPrefixOf hprefix, fun hne => ?_⟩
      obtain ⟨t, rfl⟩ := hprefix
      split_ifs at hne ⊢ with hnil hx
      · exact absurd rfl hne
      · exact Lex.rel ((lt_add_one_iff hx).mpr le_rfl)
      · exact Lex.cons (((ih (p ++ t)).mpr (prefix_append p t)).2 hnil)

/-- The successor of a prefix, if there is one, ends the interval of the strings that start with
the prefix; there is none for a prefix of bytes `0xff` only. -/
theorem prefixSuccessor_spec (p : Bytes) :
    (prefixSuccessor p ≠ [] → ∀ s : Bytes, p ≤ s ∧ s < prefixSuccessor p ↔ p <+: s) ∧
      (prefixSuccessor p = [] ↔ p = [] ∨ ∀ c ∈ p, c = 0xff) := by
  constructor
  · intro hne s
    rw [← le_and_lt_prefixSuccessor_iff]
    exact and_congr_right fun _ => ⟨fun h _ => h, fun h => h hne⟩
  · rw [prefixSuccessor_eq_nil_iff]
    refine ⟨.inr, ?_⟩
    rintro (rfl | h)
    · exact nofun
    · exact h

theorem prefixSuccessor_spec_carry :
    prefixSuccessor [0x61, 0xff] ≠ [] ∧ ([0x61, 0xff] : Bytes) ≤ [0x61, 0xff, 0x00] ∧
      ([0x61, 0xff, 0x00] : Bytes) < prefixSuccessor [0x61, 0xff] := by
  have hne : prefixSuccessor [0x61, 0xff] ≠ [] := by decide
  exact ⟨hne, ((prefixSuccessor_spec [0x61, 0xff]).1 hne _).mpr (by decide)⟩

end Firebase.Firestore.Util
