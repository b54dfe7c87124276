import Mathlib.Data.List.Lex
import Mathlib.Tactic

set_option autoImplicit false

/-! # C strings

A C string is the bytes before its terminating `NUL`; none of them is `0`, which the structure
`CStr` carries. `strcmp` compares the bytes as unsigned characters, with the terminator `0` below
every byte of a string, so its sign is the lexicographic order (`strcmp_neg_iff`); `strcmp` is
`0` exactly on equal strings (`strcmp_eq_zero_iff`).
-/

namespace KvStore.Lib

/-- A C string, without its terminator. -/
structure CStr where
  bytes : List UInt8
  nul_notMem : (0 : UInt8) ∉ bytes
  deriving DecidableEq

namespace CStr

theorem ext_bytes {a b : CStr} (h : a.bytes = b.bytes) : a = b := by
  cases a; cases b; cases h; rfl

/-- The string a text literal denotes. -/
def lit (s : String) : CStr :=
  ⟨(s.toList.map fun c => UInt8.ofNat c.toNat).filter (· ≠ 0), by simp⟩

instance : Inhabited CStr := ⟨⟨[], by simp⟩⟩

/-- The length without the terminator. -/
def strlen (s : CStr) : Nat := s.bytes.length

/-! ## Comparison -/

/-- `strcmp` on the bytes of two strings: the difference at the first position where they differ,
the end of a string counting as `0`. -/
def cmpBytes : List UInt8 → List UInt8 → Int
  | [], [] => 0
  | [], b :: _ => 0 - (b.toNat : Int)
  | a :: _, [] => (a.toNat : Int) - 0
  | a :: as, b :: bs => if a = b then cmpBytes as bs else (a.toNat : Int) - (b.toNat : Int)

def strcmp (a b : CStr) : Int := cmpBytes a.bytes b.bytes

/-- The bytes as numbers, which Mathlib orders lexicographically. -/
def codes (s : CStr) : List Nat := s.bytes.map UInt8.toNat

theorem codes_injective : Function.Injective codes := by
  intro a b h
  refine ext_bytes ?_
  exact List.map_injective_iff.mpr (fun x y hxy => UInt8.toNat_inj.mp hxy) h

/-- The order of C strings: lexicographic in the unsigned bytes. -/
instance : LinearOrder CStr := LinearOrder.lift' codes codes_injective

private theorem toNat_pos {b : UInt8} (hb : b ≠ 0) : 0 < b.toNat := by
  rcases Nat.eq_zero_or_pos b.toNat with h | h
  · exact absurd (UInt8.toNat_inj.mp h) hb
  · exact h

private theorem cmpBytes_neg_iff : ∀ (as bs : List UInt8), (0 : UInt8) ∉ as → (0 : UInt8) ∉ bs →
    (cmpBytes as bs < 0 ↔ as.map UInt8.toNat < bs.map UInt8.toNat)
  | [], [], _, _ => by simp [cmpBytes]
  | [], b :: bs, _, hb => by
      have hpos : 0 < b.toNat := toNat_pos (fun h => hb (by simp [h]))
      simp only [cmpBytes, List.map_nil, List.map_cons, List.nil_lt_cons, iff_true]
      omega
  | a :: as, [], ha, _ => by
      simp only [cmpBytes, List.map_nil, List.map_cons, List.not_lt_nil, iff_false]
      omega
  | a :: as, b :: bs, ha, hb => by
      rw [cmpBytes, List.map_cons, List.map_cons, List.cons_lt_cons_iff]
      by_cases hab : a = b
      · rw [if_pos hab, cmpBytes_neg_iff as bs (fun h => ha (by simp [h]))
          (fun h => hb (by simp [h]))]
        subst hab
        simp
      · have hne : a.toNat ≠ b.toNat := fun h => hab (UInt8.toNat_inj.mp h)
        rw [if_neg hab]
        constructor
        · intro h; exact Or.inl (by omega)
        · rintro (h | ⟨h, -⟩)
          · omega
          · exact absurd h hne

private theorem cmpBytes_swap : ∀ as bs : List UInt8, cmpBytes as bs = -cmpBytes bs as
  | [], [] => by simp [cmpBytes]
  | [], b :: bs => by simp [cmpBytes]
  | a :: as, [] => by simp [cmpBytes]
  | a :: as, b :: bs => by
      rw [cmpBytes, cmpBytes]
      by_cases hab : a = b
      · rw [if_pos hab, if_pos hab.symm, cmpBytes_swap as bs]
      · rw [if_neg hab, if_neg (fun h => hab h.symm)]
        omega

theorem strcmp_neg_iff (a b : CStr) : strcmp a b < 0 ↔ a < b :=
  cmpBytes_neg_iff a.bytes b.bytes a.nul_notMem b.nul_notMem

theorem strcmp_swap (a b : CStr) : strcmp a b = -strcmp b a := cmpBytes_swap a.bytes b.bytes

theorem strcmp_pos_iff (a b : CStr) : 0 < strcmp a b ↔ b < a := by
  rw [strcmp_swap, ← strcmp_neg_iff]
  omega

theorem strcmp_eq_zero_iff (a b : CStr) : strcmp a b = 0 ↔ a = b := by
  have hneg := strcmp_neg_iff a b
  have hpos := strcmp_pos_iff a b
  constructor
  · intro h
    rcases lt_trichotomy a b with hlt | heq | hgt
    · have := hneg.mpr hlt; omega
    · exact heq
    · have := hpos.mpr hgt; omega
  · rintro rfl
    have h₁ : ¬strcmp a a < 0 := fun h => lt_irrefl a (hneg.mp h)
    have h₂ : ¬0 < strcmp a a := fun h => lt_irrefl a (hpos.mp h)
    omega

end CStr

end KvStore.Lib
