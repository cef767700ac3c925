import Mathlib.Data.List.Infix
import Mathlib.Data.List.Lex
import Mathlib.Order.Fin.Basic

/-!
Hex renderings of ids and the prefix queries on them. `HexPrefix` and `common_hex_len`
live outside this repository and are modelled from the spec. Ids are ordered as their
bytes are; the rendering orders them the same way, and the ids a prefix matches form an
interval of that order, which the id index's binary search relies on.
-/

namespace RevsetEngine

/-- Modelled from the spec: the two hex digits of a byte, high half first. -/
def hexPair (b : Fin 256) : List (Fin 16) :=
  [⟨b.val / 16, by omega⟩, ⟨b.val % 16, by omega⟩]

/-- Modelled from the spec: the hex rendering of an id. -/
def hexDigits (bytes : List (Fin 256)) : List (Fin 16) :=
  bytes.flatMap hexPair

/-- Modelled from the spec: `HexPrefix`, a prefix of hex digits of odd or even length. -/
structure HexPrefix where
  digits : List (Fin 16)

/-- Modelled from the spec: digits read two at a time as bytes, an odd last digit padded
with `0`. -/
def bytesOfDigits : List (Fin 16) → List (Fin 256)
  | [] => []
  | [d] => [⟨d.val * 16, by omega⟩]
  | d :: d' :: ds => ⟨d.val * 16 + d'.val, by omega⟩ :: bytesOfDigits ds

/-- Modelled from the spec: `min_prefix_bytes()`, the least byte string the prefix
matches. -/
def HexPrefix.minPrefixBytes (p : HexPrefix) : List (Fin 256) :=
  bytesOfDigits p.digits

/-- Modelled from the spec: `matches(id)`, the id's hex rendering starts with the
prefix. -/
def HexPrefix.matches (p : HexPrefix) (id : List (Fin 256)) : Bool :=
  p.digits.isPrefixOf (hexDigits id)

/-- The number of leading elements two lists share. -/
def commonPrefixLen : List (Fin 16) → List (Fin 16) → Nat
  | d :: ds, d' :: ds' => if d = d' then commonPrefixLen ds ds' + 1 else 0
  | _, _ => 0

/-- Modelled from the spec: `backend::common_hex_len(a, b)`, the number of leading hex
digits the two renderings share. -/
def commonHexLen (a b : List (Fin 256)) : Nat :=
  commonPrefixLen (hexDigits a) (hexDigits b)

theorem matches_iff (p : HexPrefix) (id : List (Fin 256)) :
    p.matches id = true ↔ p.digits <+: hexDigits id :=
  List.isPrefixOf_iff_prefix

/-! ### The lexicographic order -/

section Lex

variable {α : Type} [LinearOrder α]

theorem cons_lt_cons_iff {a b : α} {l l' : List α} :
    a :: l < b :: l' ↔ a < b ∨ a = b ∧ l < l' := by
  constructor
  · intro h
    cases h with
    | cons h => exact .inr ⟨rfl, h⟩
    | rel h => exact .inl h
  · rintro (h | ⟨rfl, h⟩)
    · exact List.Lex.rel h
    · exact List.Lex.cons h

theorem cons_le_cons_iff {a b : α} {l l' : List α} :
    a :: l ≤ b :: l' ↔ a < b ∨ a = b ∧ l ≤ l' := by
  simp only [le_iff_lt_or_eq, cons_lt_cons_iff, List.cons.injEq]
  constructor
  · rintro ((h | ⟨rfl, h⟩) | ⟨rfl, rfl⟩)
    · exact .inl h
    · exact .inr ⟨rfl, .inl h⟩
    · exact .inr ⟨rfl, .inr rfl⟩
  · rintro (h | ⟨rfl, h | rfl⟩)
    · exact .inl (.inl h)
    · exact .inl (.inr ⟨rfl, h⟩)
    · exact .inr ⟨rfl, rfl⟩

theorem le_append_right (l r : List α) : l ≤ l ++ r := by
  cases r with
  | nil => simp
  | cons a r =>
      have h := List.Lex.append_left (· < ·) (@List.Lex.nil α (· < ·) a r) l
      exact le_of_lt (by simpa using h)

theorem append_le_append_left {s t : List α} (h : s ≤ t) (u : List α) : u ++ s ≤ u ++ t := by
  rcases h.lt_or_eq with h | rfl
  · exact le_of_lt (List.Lex.append_left _ h u)
  · exact le_rfl

/-- Lists of one length compare by their first difference, whatever follows them. -/
theorem append_lt_append_of_lt {u v : List α} (h : u < v) (hl : u.length = v.length)
    (s t : List α) : u ++ s < v ++ t := by
  induction h with
  | nil => simp at hl
  | cons _ ih => exact List.Lex.cons (ih (by simpa using hl))
  | rel h => exact List.Lex.rel h

/-- A prefix shared by two lists is shared by every list between them. -/
theorem isPrefix_of_le_of_le {P x y z : List α} (hx : P <+: x) (hz : P <+: z) (hxy : x ≤ y)
    (hyz : y ≤ z) : P <+: y := by
  induction P generalizing x y z with
  | nil => exact List.nil_prefix
  | cons d P ih =>
      obtain ⟨x, rfl⟩ : ∃ x', x = d :: x' := let ⟨t, ht⟩ := hx; ⟨P ++ t, ht.symm⟩
      obtain ⟨z, rfl⟩ : ∃ z', z = d :: z' := let ⟨t, ht⟩ := hz; ⟨P ++ t, ht.symm⟩
      cases y with
      | nil => exact absurd hxy (not_le.mpr (List.nil_lt_cons _ _))
      | cons e y =>
          rcases cons_le_cons_iff.mp hxy with hde | ⟨rfl, hxy'⟩
          · rcases cons_le_cons_iff.mp hyz with hed | ⟨rfl, -⟩
            · exact absurd (hde.trans hed) (lt_irrefl d)
            · exact absurd hde (lt_irrefl _)
          · rcases cons_le_cons_iff.mp hyz with hed | ⟨-, hyz'⟩
            · exact absurd hed (lt_irrefl _)
            · exact List.cons_prefix_cons.mpr ⟨rfl, ih (List.cons_prefix_cons.mp hx).2
                (List.cons_prefix_cons.mp hz).2 hxy' hyz'⟩

end Lex

/-! ### Renderings -/

@[simp] theorem hexDigits_nil : hexDigits [] = [] := rfl

@[simp] theorem hexDigits_cons (b : Fin 256) (bs : List (Fin 256)) :
    hexDigits (b :: bs) = hexPair b ++ hexDigits bs := rfl

@[simp] theorem length_hexDigits (bs : List (Fin 256)) : (hexDigits bs).length = 2 * bs.length := by
  induction bs with
  | nil => rfl
  | cons b bs ih => simp [hexPair, ih]; omega

theorem hexPair_lt {a b : Fin 256} (h : a < b) : hexPair a < hexPair b := by
  simp only [hexPair, cons_lt_cons_iff, Fin.lt_def, Fin.ext_iff, lt_self_iff_false, and_false,
    or_false] at h ⊢
  omega

/-- Rendering in hex keeps the byte order. -/
theorem hexDigits_strictMono : StrictMono hexDigits := by
  intro a b h
  induction a generalizing b with
  | nil =>
      cases b with
      | nil => exact absurd h (lt_irrefl _)
      | cons y b => exact List.Lex.nil
  | cons x a ih =>
      cases b with
      | nil => exact absurd h (not_lt.mpr List.nil_le)
      | cons y b =>
          rw [hexDigits_cons, hexDigits_cons]
          rcases cons_lt_cons_iff.mp h with hxy | ⟨rfl, hab⟩
          · exact append_lt_append_of_lt (hexPair_lt hxy) rfl _ _
          · exact List.Lex.append_left _ (ih hab) _

@[simp] theorem hexDigits_le_hexDigits {a b : List (Fin 256)} :
    hexDigits a ≤ hexDigits b ↔ a ≤ b :=
  hexDigits_strictMono.le_iff_le

theorem hexDigits_bytesOfDigits :
    ∀ ds : List (Fin 16), hexDigits (bytesOfDigits ds) = ds ++ if ds.length % 2 = 1 then [0] else []
  | [] => rfl
  | [d] => by simp [bytesOfDigits, hexPair, Fin.ext_iff]
  | d :: d' :: ds => by
      have hpar : (d :: d' :: ds).length % 2 = ds.length % 2 := by simp; omega
      rw [bytesOfDigits, hexDigits_cons, hexDigits_bytesOfDigits ds, hpar]
      simp only [hexPair, List.cons_append, List.nil_append, List.cons.injEq, and_true]
      exact ⟨Fin.ext (by simp; omega), Fin.ext (by simp; omega)⟩

/-- The least id a prefix matches is its padded byte form. -/
theorem matches_minPrefixBytes (p : HexPrefix) : p.matches p.minPrefixBytes = true :=
  (matches_iff _ _).mpr ⟨_, (hexDigits_bytesOfDigits p.digits).symm⟩

theorem minPrefixBytes_le {p : HexPrefix} {k : List (Fin 256)} (h : p.matches k = true) :
    p.minPrefixBytes ≤ k := by
  obtain ⟨r, hr⟩ := (matches_iff p k).mp h
  rw [← hexDigits_le_hexDigits, HexPrefix.minPrefixBytes, hexDigits_bytesOfDigits, ← hr]
  split
  · next hodd =>
      cases r with
      | nil =>
          have hlen := congrArg List.length hr
          simp only [List.append_nil, length_hexDigits] at hlen
          omega
      | cons d r =>
          refine append_le_append_left (cons_le_cons_iff.mpr ?_) _
          rcases Nat.eq_zero_or_pos d.val with h0 | h0
          · exact .inr ⟨Fin.ext h0.symm, (List.nil_le : ([] : List (Fin 16)) ≤ r)⟩
          · exact .inl (Fin.lt_def.mpr h0)
  · simpa using le_append_right p.digits r

/-- The ids a prefix matches form an interval starting at its least id. -/
theorem matches_of_le_of_le {p : HexPrefix} {x y : List (Fin 256)} (hy : p.matches y = true)
    (hx : p.minPrefixBytes ≤ x) (hxy : x ≤ y) : p.matches x = true :=
  (matches_iff p x).mpr (isPrefix_of_le_of_le ((matches_iff _ _).mp (matches_minPrefixBytes p))
    ((matches_iff p y).mp hy) (hexDigits_le_hexDigits.mpr hx) (hexDigits_le_hexDigits.mpr hxy))

/-! ### Common prefixes -/

theorem commonPrefixLen_le_length : ∀ u v : List (Fin 16), commonPrefixLen u v ≤ u.length
  | d :: ds, d' :: ds' => by
      unfold commonPrefixLen
      split
      · simpa using commonPrefixLen_le_length ds ds'
      · exact Nat.zero_le _
  | [], _ => Nat.zero_le _
  | _ :: _, [] => Nat.zero_le _

/-- The first `commonPrefixLen u v` elements of `u` start `v`. -/
theorem take_commonPrefixLen_isPrefix : ∀ u v : List (Fin 16), u.take (commonPrefixLen u v) <+: v
  | d :: ds, d' :: ds' => by
      unfold commonPrefixLen
      split
      · next h =>
          subst h
          exact List.cons_prefix_cons.mpr ⟨rfl, take_commonPrefixLen_isPrefix ds ds'⟩
      · exact List.nil_prefix
  | [], _ => List.nil_prefix
  | _ :: _, [] => List.nil_prefix

/-- Every common prefix is at most `commonPrefixLen` long. -/
theorem length_le_commonPrefixLen : ∀ {P u v : List (Fin 16)}, P <+: u → P <+: v →
    P.length ≤ commonPrefixLen u v
  | [], _, _, _, _ => Nat.zero_le _
  | d :: P, u, v, hu, hv => by
      obtain ⟨u, rfl⟩ : ∃ u', u = d :: u' := let ⟨t, ht⟩ := hu; ⟨P ++ t, ht.symm⟩
      obtain ⟨v, rfl⟩ : ∃ v', v = d :: v' := let ⟨t, ht⟩ := hv; ⟨P ++ t, ht.symm⟩
      simpa [commonPrefixLen] using
        length_le_commonPrefixLen (List.cons_prefix_cons.mp hu).2 (List.cons_prefix_cons.mp hv).2

theorem le_commonPrefixLen_iff {m : Nat} {u v : List (Fin 16)} :
    m ≤ commonPrefixLen u v ↔ m ≤ u.length ∧ u.take m <+: v := by
  constructor
  · intro h
    refine ⟨h.trans (commonPrefixLen_le_length u v), ?_⟩
    exact (List.take_prefix_take_left u h).trans (take_commonPrefixLen_isPrefix u v)
  · rintro ⟨hm, hv⟩
    simpa [hm] using length_le_commonPrefixLen (List.take_prefix m u) hv

/-- Moving away from `z` in the order never lengthens the prefix shared with `z`. -/
theorem commonPrefixLen_le_of_le_of_le {x y z : List (Fin 16)} (hxy : x ≤ y) (hyz : y ≤ z) :
    commonPrefixLen z x ≤ commonPrefixLen z y ∧ commonPrefixLen x z ≤ commonPrefixLen x y := by
  constructor
  · have hz := (le_commonPrefixLen_iff.mp (le_refl (commonPrefixLen z x)))
    exact le_commonPrefixLen_iff.mpr ⟨hz.1,
      isPrefix_of_le_of_le hz.2 (List.take_prefix _ _) hxy hyz⟩
  · have hx := (le_commonPrefixLen_iff.mp (le_refl (commonPrefixLen x z)))
    exact le_commonPrefixLen_iff.mpr ⟨hx.1,
      isPrefix_of_le_of_le (List.take_prefix _ _) hx.2 hxy hyz⟩

theorem le_commonHexLen_iff {m : Nat} {a b : List (Fin 256)} :
    m ≤ commonHexLen a b ↔ m ≤ 2 * a.length ∧ (hexDigits a).take m <+: hexDigits b := by
  rw [commonHexLen, le_commonPrefixLen_iff, length_hexDigits]

/-- The first `m` digits of `c` match exactly the ids sharing `m` digits with `c`. -/
theorem matches_take_iff {c k : List (Fin 256)} {m : Nat} (hm : m ≤ 2 * c.length) :
    HexPrefix.matches ⟨(hexDigits c).take m⟩ k = true ↔ m ≤ commonHexLen c k := by
  rw [matches_iff, le_commonHexLen_iff]
  exact ⟨fun h => ⟨hm, h⟩, And.right⟩

theorem commonHexLen_le_of_le_of_le {x y z : List (Fin 256)} (hxy : x ≤ y) (hyz : y ≤ z) :
    commonHexLen z x ≤ commonHexLen z y ∧ commonHexLen x z ≤ commonHexLen x y :=
  commonPrefixLen_le_of_le_of_le (hexDigits_le_hexDigits.mpr hxy) (hexDigits_le_hexDigits.mpr hyz)

end RevsetEngine
