import RevsetEngine.HexPrefix
import RevsetEngine.Index

/-!
`IdIndex`, the table from ids to values behind change-id prefix lookup. Its entries are
sorted by key, so the entries a hex prefix matches are one run that starts at the
partition point of the prefix's least id, and the longest prefix a key shares with any
other stored key is shared with one of the two stored keys next to it in the order.
-/

namespace RevsetEngine

/-- `PrefixResolution`, the outcome of a prefix lookup. -/
inductive PrefixResolution (α : Type) where
  | noMatch
  | singleMatch (x : α)
  | ambiguousMatch
  deriving Repr, DecidableEq

/-- Two outcomes of a lookup agree up to the order of a single match's values. -/
def PrefixResolution.Agree {U : Type} : PrefixResolution (List U) → PrefixResolution (List U) → Prop
  | .noMatch, .noMatch | .ambiguousMatch, .ambiguousMatch => True
  | .singleMatch vs₁, .singleMatch vs₂ => vs₁.Perm vs₂
  | _, _ => False

/-- `slice::partition_point` on a partitioned slice: the length of the leading run that
satisfies `pred`. -/
def partitionPoint {α : Type} (pred : α → Bool) (l : List α) : Nat :=
  (l.takeWhile pred).length

/-- `IdIndex`: entries sorted by key, several values per key allowed. -/
structure IdIndex (V : Type) where
  entries : List (List (Fin 256) × V)
  sorted : entries.Sorted fun a b => a.1 ≤ b.1

namespace IdIndex

variable {V U : Type}

/-- `from_vec`: the entries sorted by key. `sort_unstable_by` may order the values of one
key in any way; insertion sort is one of its outcomes, and the laws below hold for every
sorted permutation of the entries. -/
def fromVec (vec : List (List (Fin 256) × V)) : IdIndex V where
  entries := vec.insertionSort fun a b => a.1 ≤ b.1
  sorted := by
    haveI : IsTotal (List (Fin 256) × V) fun a b => a.1 ≤ b.1 := ⟨fun a b => le_total a.1 b.1⟩
    haveI : IsTrans (List (Fin 256) × V) fun a b => a.1 ≤ b.1 := ⟨fun _ _ _ => le_trans⟩
    exact List.sorted_insertionSort _ vec

/-- `resolve_prefix_range`: the entries from the partition point of the prefix's least
id, as long as they match. -/
def resolvePrefixRange (idx : IdIndex V) (p : HexPrefix) : List (List (Fin 256) × V) :=
  let minBytes := p.minPrefixBytes
  let pos := partitionPoint (fun e => decide (e.1 < minBytes)) idx.entries
  (idx.entries.drop pos).takeWhile fun e => p.matches e.1

/-- `resolve_prefix_with`: the mapped values if every entry of the range has the first
entry's key. -/
def resolvePrefixWith (idx : IdIndex V) (p : HexPrefix) (valueMapper : V → U) :
    PrefixResolution (List U) :=
  let range := idx.resolvePrefixRange p
  match range.head? with
  | none => .noMatch
  | some (firstKey, _) =>
      match range.mapM fun e => if e.1 = firstKey then some (valueMapper e.2) else none with
      | some entries => .singleMatch entries
      | none => .ambiguousMatch

/-- `shortest_unique_prefix_len`: one more than the hex digits `key` shares with the
largest stored key below it or the first stored key above it, `0` if there is neither. -/
def shortestUniquePrefixLen (idx : IdIndex V) (key : List (Fin 256)) : Nat :=
  let pos := partitionPoint (fun e => decide (e.1 < key)) idx.entries
  let left := if pos = 0 then none else idx.entries[pos - 1]?
  let right := (idx.entries.drop pos).find? fun e => e.1 ≠ key
  ((left.toList ++ right.toList).map fun e => commonHexLen key e.1 + 1).max?.getD 0

theorem fromVec_perm (vec : List (List (Fin 256) × V)) : (fromVec vec).entries.Perm vec :=
  List.perm_insertionSort _ vec

/-- The table of the engine's prefix-resolution test: ids `0000`, `0099` (twice), `0aaa`
and `0aab`. -/
def prefixTestEntries : List (List (Fin 256) × Nat) :=
  [([0x00, 0x00], 0), ([0x00, 0x99], 1), ([0x00, 0x99], 2), ([0x0a, 0xaa], 3), ([0x0a, 0xab], 4)]

/-- The table of the engine's shortest-prefix test: ids `ab`, `acd0`, `acf0`, `a0`, `ba`. -/
def shortestTestEntries : List (List (Fin 256) × Unit) :=
  [([0xab], ()), ([0xac, 0xd0], ()), ([0xac, 0xf0], ()), ([0xa0], ()), ([0xba], ())]

end IdIndex

/-! ### Runs of a list -/

section Runs

variable {α : Type}

theorem drop_partitionPoint (p : α → Bool) :
    ∀ l : List α, l.drop (partitionPoint p l) = l.dropWhile p
  | [] => rfl
  | a :: l => by
      by_cases ha : p a
      · simpa [partitionPoint, List.takeWhile_cons, List.dropWhile_cons, ha] using
          drop_partitionPoint p l
      · simp [partitionPoint, List.takeWhile_cons, List.dropWhile_cons, ha]

/-- The element before the partition point is the last of the leading run. -/
theorem getElem?_pred_partitionPoint (p : α → Bool) (l : List α) :
    (if partitionPoint p l = 0 then none else l[partitionPoint p l - 1]?) =
      (l.takeWhile p).getLast? := by
  have hl := List.takeWhile_append_dropWhile p l
  unfold partitionPoint
  generalize l.takeWhile p = A at hl ⊢
  split
  · next h => simp [List.length_eq_zero.mp h]
  · next h =>
      conv_lhs => rw [← hl]
      rw [List.getElem?_append_left (by omega), List.getLast?_eq_getElem?]

theorem mapM_if_eq {β γ : Type} (P : β → Prop) [DecidablePred P] (f : β → γ) :
    ∀ l : List β, l.mapM (fun b => if P b then some (f b) else none) =
      if ∀ b ∈ l, P b then some (l.map f) else none
  | [] => rfl
  | b :: l => by
      rw [List.mapM_cons, mapM_if_eq P f l]
      by_cases hb : P b
      · by_cases hl : ∀ b ∈ l, P b
        · rw [if_pos hl, if_pos (List.forall_mem_cons.mpr ⟨hb, hl⟩)]
          simp [hb]
        · rw [if_neg hl, if_neg fun h => hl (List.forall_mem_cons.mp h).2]
          simp [hb]
      · rw [if_neg fun h => hb (List.forall_mem_cons.mp h).1]
        simp [hb]

end Runs

/-! ### Sorted entries -/

section Sorted

variable {V : Type} {l : List (List (Fin 256) × V)}

/-- In a sorted table the last entry has the largest key. -/
theorem exists_getLast?_ge (hs : l.Sorted fun a b => a.1 ≤ b.1) {e : List (Fin 256) × V}
    (he : e ∈ l) : ∃ c, l.getLast? = some c ∧ e.1 ≤ c.1 := by
  obtain ⟨ys, c, rfl⟩ := (List.eq_nil_or_concat l).resolve_left (List.ne_nil_of_mem he)
  rw [List.concat_eq_append] at hs he ⊢
  refine ⟨c, by simp, ?_⟩
  rcases List.mem_append.mp he with h | h
  · exact (List.pairwise_append.mp hs).2.2 e h c (List.mem_singleton_self c)
  · rw [List.mem_singleton.mp h]

/-- In a sorted table the first entry satisfying `q` has a key no larger than any other. -/
theorem exists_find?_le (hs : l.Sorted fun a b => a.1 ≤ b.1) {q : List (Fin 256) × V → Bool}
    {e : List (Fin 256) × V} (he : e ∈ l) (hq : q e = true) :
    ∃ c, l.find? q = some c ∧ c.1 ≤ e.1 := by
  induction l with
  | nil => cases he
  | cons a l ih =>
      rw [List.sorted_cons] at hs
      by_cases ha : q a
      · refine ⟨a, List.find?_cons_of_pos _ ha, ?_⟩
        rcases List.mem_cons.mp he with rfl | h
        · exact le_rfl
        · exact hs.1 e h
      · rw [List.find?_cons_of_neg _ ha]
        exact ih hs.2 ((List.mem_cons.mp he).resolve_left fun h => ha (h ▸ hq))

end Sorted

namespace IdIndex

variable {V U : Type} (idx : IdIndex V)

theorem pairwise_lt_key (key : List (Fin 256)) :
    idx.entries.Pairwise fun a b => decide (b.1 < key) = true → decide (a.1 < key) = true :=
  idx.sorted.imp fun hab hb => decide_eq_true (lt_of_le_of_lt hab (of_decide_eq_true hb))

/-- The run `resolve_prefix_range` reads is every entry the prefix matches: the matching
keys are one run from the partition point of the prefix's least id. -/
theorem resolvePrefixRange_eq_filter (p : HexPrefix) :
    idx.resolvePrefixRange p = idx.entries.filter fun e => p.matches e.1 := by
  have hmin : ∀ e ∈ idx.entries.filter (fun e => !decide (e.1 < p.minPrefixBytes)),
      p.minPrefixBytes ≤ e.1 := fun e he => by simpa using (List.mem_filter.mp he).2
  rw [resolvePrefixRange, drop_partitionPoint, dropWhile_eq_filter (idx.pairwise_lt_key _),
    takeWhile_eq_filter, List.filter_filter]
  · refine List.filter_congr fun e _ => ?_
    cases hm : p.matches e.1
    · rfl
    · simpa using minPrefixBytes_le hm
  · exact (idx.sorted.filter _).imp_of_mem fun ha _ hab hb =>
      matches_of_le_of_le hb (hmin _ ha) hab

/-- `resolve_prefix_with` decided by the entries the prefix matches. -/
theorem resolvePrefixWith_eq (p : HexPrefix) (f : V → U) :
    idx.resolvePrefixWith p f =
      match idx.entries.filter fun e => p.matches e.1 with
      | [] => .noMatch
      | e :: rest =>
          if ∀ e' ∈ rest, e'.1 = e.1 then .singleMatch ((e :: rest).map fun e => f e.2)
          else .ambiguousMatch := by
  rw [resolvePrefixWith, resolvePrefixRange_eq_filter]
  generalize idx.entries.filter (fun e => p.matches e.1) = R
  rcases R with _ | ⟨⟨k, v⟩, rest⟩
  · rfl
  · simp only [List.head?_cons, mapM_if_eq, List.forall_mem_cons, true_and]
    by_cases h : ∀ e' ∈ rest, e'.1 = k
    · rw [if_pos h, if_pos h]
    · rw [if_neg h, if_neg h]

section Resolve

variable {p : HexPrefix} (f : V → U)

theorem resolvePrefixWith_of_forall_not_matches
    (h : ∀ e ∈ idx.entries, p.matches e.1 = false) : idx.resolvePrefixWith p f = .noMatch := by
  rw [resolvePrefixWith_eq, List.filter_eq_nil_iff.mpr fun e he => by simp [h e he]]

theorem resolvePrefixWith_of_matches_eq {e : List (Fin 256) × V} (he : e ∈ idx.entries)
    (hm : p.matches e.1 = true) (hk : ∀ e' ∈ idx.entries, p.matches e'.1 = true → e'.1 = e.1) :
    idx.resolvePrefixWith p f =
      .singleMatch ((idx.entries.filter fun e' => e'.1 = e.1).map fun e => f e.2) := by
  have hfilter : (idx.entries.filter fun e' => p.matches e'.1) =
      idx.entries.filter fun e' => e'.1 = e.1 := List.filter_congr fun e' he' => by
    rw [Bool.eq_iff_iff, decide_eq_true_iff]
    exact ⟨hk e' he', fun h => h ▸ hm⟩
  have hkeys : ∀ e' ∈ idx.entries.filter (fun e' => p.matches e'.1), e'.1 = e.1 := fun e' he' =>
    hk e' (List.mem_filter.mp he').1 (List.mem_filter.mp he').2
  rw [resolvePrefixWith_eq]
  generalize hR : idx.entries.filter (fun e' => p.matches e'.1) = R at hfilter hkeys
  rcases R with _ | ⟨r, rest⟩
  · exact absurd (hR ▸ List.mem_filter.mpr ⟨he, hm⟩ : e ∈ []) (List.not_mem_nil e)
  · have hr := hkeys r (List.mem_cons_self _ _)
    dsimp only
    rw [if_pos fun e' he' => (hkeys e' (List.mem_cons_of_mem _ he')).trans hr.symm, hfilter]

theorem resolvePrefixWith_of_matches_ne {e₁ e₂ : List (Fin 256) × V} (he₁ : e₁ ∈ idx.entries)
    (he₂ : e₂ ∈ idx.entries) (hm₁ : p.matches e₁.1 = true) (hm₂ : p.matches e₂.1 = true)
    (hne : e₁.1 ≠ e₂.1) : idx.resolvePrefixWith p f = .ambiguousMatch := by
  have hin : ∀ e, e ∈ idx.entries → p.matches e.1 = true →
      e ∈ idx.entries.filter fun e' => p.matches e'.1 := fun e he hm => List.mem_filter.mpr ⟨he, hm⟩
  rw [resolvePrefixWith_eq]
  generalize hR : idx.entries.filter (fun e' => p.matches e'.1) = R at hin
  rcases R with _ | ⟨r, rest⟩
  · exact absurd (hin e₁ he₁ hm₁) (List.not_mem_nil e₁)
  · dsimp only
    refine if_neg fun hall => hne ?_
    have hkey : ∀ e ∈ r :: rest, e.1 = r.1 := List.forall_mem_cons.mpr ⟨rfl, hall⟩
    exact (hkey e₁ (hin e₁ he₁ hm₁)).trans (hkey e₂ (hin e₂ he₂ hm₂)).symm

theorem exists_matches_ne_of_ambiguous {p : HexPrefix} {f : V → U}
    (h : idx.resolvePrefixWith p f = .ambiguousMatch) :
    ∃ e₁ ∈ idx.entries, ∃ e₂ ∈ idx.entries,
      p.matches e₁.1 ∧ p.matches e₂.1 ∧ e₁.1 ≠ e₂.1 := by
  have hin : ∀ e ∈ idx.entries.filter (fun e => p.matches e.1),
      e ∈ idx.entries ∧ p.matches e.1 = true := fun e he => List.mem_filter.mp he
  rw [resolvePrefixWith_eq] at h
  generalize idx.entries.filter (fun e => p.matches e.1) = R at h hin
  rcases R with _ | ⟨r, rest⟩
  · cases h
  · dsimp only at h
    by_cases hall : ∀ e' ∈ rest, e'.1 = r.1
    · rw [if_pos hall] at h
      cases h
    · push_neg at hall
      obtain ⟨e, he, hne⟩ := hall
      obtain ⟨he, hme⟩ := hin e (List.mem_cons_of_mem _ he)
      obtain ⟨hr, hmr⟩ := hin r (List.mem_cons_self _ _)
      exact ⟨e, he, r, hr, hme, hmr, hne⟩

end Resolve

/-- A prefix lookup over any sorting of `vec`: no match when no key matches; one match,
with the values of that key in some order, when all matching keys agree; ambiguous when
two matching keys differ. -/
theorem resolvePrefixWith_spec (vec : List (List (Fin 256) × V)) (idx : IdIndex V)
    (hperm : idx.entries.Perm vec) (p : HexPrefix) (f : V → U) :
    (idx.resolvePrefixWith p f = .noMatch ↔ ∀ e ∈ vec, p.matches e.1 = false) ∧
    ((∃ k, (∃ e ∈ vec, p.matches e.1) ∧ ∀ e ∈ vec, p.matches e.1 → e.1 = k) →
      ∃ vs, idx.resolvePrefixWith p f = .singleMatch vs) ∧
    (∀ vs, idx.resolvePrefixWith p f = .singleMatch vs →
      ∃ k, (∃ e ∈ vec, p.matches e.1) ∧ (∀ e ∈ vec, p.matches e.1 → e.1 = k) ∧
        vs.Perm ((vec.filter fun e => e.1 = k).map fun e => f e.2)) ∧
    (idx.resolvePrefixWith p f = .ambiguousMatch ↔
      ∃ e₁ ∈ vec, ∃ e₂ ∈ vec, p.matches e₁.1 ∧ p.matches e₂.1 ∧ e₁.1 ≠ e₂.1) := by
  have hmem : ∀ e, e ∈ idx.entries ↔ e ∈ vec := fun e => hperm.mem_iff
  by_cases hany : ∃ e ∈ vec, p.matches e.1 = true
  case neg =>
    have hno : ∀ e ∈ vec, p.matches e.1 = false := fun e he => by
      simpa using fun hm => hany ⟨e, he, hm⟩
    rw [idx.resolvePrefixWith_of_forall_not_matches f fun e he => hno e ((hmem e).mp he)]
    refine ⟨iff_of_true rfl hno, ?_, (fun vs h => nomatch h), iff_of_false (nomatch ·) ?_⟩
    · rintro ⟨k, ⟨e, he, hm⟩, -⟩
      simp [hno e he] at hm
    · rintro ⟨e, he, -, -, hm, -⟩
      simp [hno e he] at hm
  case pos =>
    obtain ⟨e₀, he₀, hm₀⟩ := hany
    have hsome : ¬∀ e ∈ vec, p.matches e.1 = false := fun h => by simp [h e₀ he₀] at hm₀
    by_cases hsame : ∀ e ∈ vec, p.matches e.1 = true → e.1 = e₀.1
    case pos =>
      rw [idx.resolvePrefixWith_of_matches_eq f ((hmem _).mpr he₀) hm₀
        fun e he => hsame e ((hmem e).mp he)]
      refine ⟨iff_of_false (nomatch ·) hsome, fun _ => ⟨_, rfl⟩, ?_, iff_of_false (nomatch ·) ?_⟩
      · rintro vs ⟨⟩
        exact ⟨e₀.1, ⟨e₀, he₀, hm₀⟩, hsame, (hperm.filter _).map _⟩
      · rintro ⟨e₁, he₁, e₂, he₂, hm₁, hm₂, hne⟩
        exact hne ((hsame e₁ he₁ hm₁).trans (hsame e₂ he₂ hm₂).symm)
    case neg =>
      push_neg at hsame
      obtain ⟨e, he, hm, hne⟩ := hsame
      rw [idx.resolvePrefixWith_of_matches_ne f ((hmem _).mpr he) ((hmem _).mpr he₀) hm hm₀ hne]
      refine ⟨iff_of_false (nomatch ·) hsome, ?_, (fun vs h => nomatch h),
        iff_of_true rfl ⟨e, he, e₀, he₀, hm, hm₀, hne⟩⟩
      rintro ⟨k, -, hk⟩
      exact absurd ((hk e he hm).trans (hk e₀ he₀ hm₀).symm) hne

example : (fromVec prefixTestEntries).resolvePrefixWith ⟨[0]⟩ id = .ambiguousMatch := by decide
example : (fromVec prefixTestEntries).resolvePrefixWith ⟨[0, 0, 0]⟩ id = .singleMatch [0] := by
  decide
example : (fromVec prefixTestEntries).resolvePrefixWith ⟨[0, 0, 0, 1]⟩ id = .noMatch := by decide

/-- The lookup of the prefix `009` in the test table. -/
theorem resolvePrefixWith_spec_test :
    (fromVec prefixTestEntries).entries.Perm prefixTestEntries ∧
    (((fromVec prefixTestEntries).resolvePrefixWith ⟨[0, 0, 9]⟩ id = .noMatch ↔
        ∀ e ∈ prefixTestEntries, HexPrefix.matches ⟨[0, 0, 9]⟩ e.1 = false) ∧
      ((∃ k, (∃ e ∈ prefixTestEntries, HexPrefix.matches ⟨[0, 0, 9]⟩ e.1) ∧
          ∀ e ∈ prefixTestEntries, HexPrefix.matches ⟨[0, 0, 9]⟩ e.1 → e.1 = k) →
        ∃ vs, (fromVec prefixTestEntries).resolvePrefixWith ⟨[0, 0, 9]⟩ id = .singleMatch vs) ∧
      (∀ vs, (fromVec prefixTestEntries).resolvePrefixWith ⟨[0, 0, 9]⟩ id = .singleMatch vs →
        ∃ k, (∃ e ∈ prefixTestEntries, HexPrefix.matches ⟨[0, 0, 9]⟩ e.1) ∧
          (∀ e ∈ prefixTestEntries, HexPrefix.matches ⟨[0, 0, 9]⟩ e.1 → e.1 = k) ∧
          vs.Perm ((prefixTestEntries.filter fun e => e.1 = k).map fun e => id e.2)) ∧
      ((fromVec prefixTestEntries).resolvePrefixWith ⟨[0, 0, 9]⟩ id = .ambiguousMatch ↔
        ∃ e₁ ∈ prefixTestEntries, ∃ e₂ ∈ prefixTestEntries,
          HexPrefix.matches ⟨[0, 0, 9]⟩ e₁.1 ∧ HexPrefix.matches ⟨[0, 0, 9]⟩ e₂.1 ∧ e₁.1 ≠ e₂.1)) :=
  ⟨fromVec_perm _, resolvePrefixWith_spec _ _ (fromVec_perm _) _ _⟩

/-- The entries `shortest_unique_prefix_len` compares `key` with: stored keys other than
`key`, and for every other stored key one sharing at least as many digits with `key`,
because the shared prefix only shrinks away from `key`'s place in the order. -/
theorem exists_neighbours (key : List (Fin 256)) :
    ∃ nb : List (List (Fin 256) × V),
      idx.shortestUniquePrefixLen key = (nb.map fun e => commonHexLen key e.1 + 1).max?.getD 0 ∧
      (∀ c ∈ nb, c ∈ idx.entries ∧ c.1 ≠ key) ∧
      ∀ e ∈ idx.entries, e.1 ≠ key → ∃ c ∈ nb, commonHexLen key e.1 ≤ commonHexLen key c.1 := by
  refine ⟨((idx.entries.filter fun e => decide (e.1 < key)).getLast?).toList ++
    ((idx.entries.filter fun e => !decide (e.1 < key)).find? fun e => e.1 ≠ key).toList,
    ?_, ?_, ?_⟩
  · simp only [shortestUniquePrefixLen, getElem?_pred_partitionPoint, drop_partitionPoint,
      takeWhile_eq_filter (idx.pairwise_lt_key key), dropWhile_eq_filter (idx.pairwise_lt_key key)]
  · intro c hc
    rcases List.mem_append.mp hc with h | h
    · obtain ⟨hc, hlt⟩ := List.mem_filter.mp
        (List.mem_of_getLast?_eq_some (Option.mem_toList.mp h))
      exact ⟨hc, ne_of_lt (of_decide_eq_true hlt)⟩
    · have h : _ = some c := Option.mem_toList.mp h
      exact ⟨(List.mem_filter.mp (List.mem_of_find?_eq_some h)).1,
        by simpa using List.find?_some h⟩
  · intro e he hne
    by_cases hlt : e.1 < key
    · obtain ⟨c, hc, hec⟩ := exists_getLast?_ge
        (idx.sorted.filter fun e : List (Fin 256) × V => decide (e.1 < key))
        (List.mem_filter.mpr ⟨he, decide_eq_true hlt⟩)
      have hck : c.1 < key :=
        of_decide_eq_true (List.mem_filter.mp (List.mem_of_getLast?_eq_some hc)).2
      exact ⟨c, List.mem_append.mpr (.inl (Option.mem_toList.mpr hc)),
        (commonHexLen_le_of_le_of_le hec hck.le).1⟩
    · obtain ⟨c, hc, hce⟩ := @exists_find?_le V _
        (idx.sorted.filter fun e : List (Fin 256) × V => !decide (e.1 < key))
        (fun e => decide (e.1 ≠ key)) e (List.mem_filter.mpr ⟨he, by simpa using hlt⟩)
        (decide_eq_true hne)
      have hkc : key ≤ c.1 :=
        not_lt.mp (by simpa using (List.mem_filter.mp (List.mem_of_find?_eq_some hc)).2)
      exact ⟨c, List.mem_append.mpr (.inr (Option.mem_toList.mpr hc)),
        (commonHexLen_le_of_le_of_le hkc hce).2⟩

theorem shortestUniquePrefixLen_eq_zero {key : List (Fin 256)}
    (h : ∀ e ∈ idx.entries, e.1 = key) : idx.shortestUniquePrefixLen key = 0 := by
  obtain ⟨nb, hval, hnb, -⟩ := idx.exists_neighbours key
  have hnil : nb = [] := List.eq_nil_iff_forall_not_mem.mpr fun c hc =>
    (hnb c hc).2 (h c (hnb c hc).1)
  simp [hval, hnil]

theorem commonHexLen_lt_shortestUniquePrefixLen {key : List (Fin 256)}
    {e : List (Fin 256) × V} (he : e ∈ idx.entries) (hne : e.1 ≠ key) :
    commonHexLen key e.1 < idx.shortestUniquePrefixLen key := by
  obtain ⟨nb, hval, -, hcover⟩ := idx.exists_neighbours key
  obtain ⟨c, hc, hle⟩ := hcover e he hne
  rw [hval]
  exact Nat.lt_of_lt_of_le (Nat.lt_succ_of_le hle)
    (List.le_max?_getD_of_mem (List.mem_map_of_mem (fun e => commonHexLen key e.1 + 1) hc))

theorem exists_shortestUniquePrefixLen_eq {key : List (Fin 256)}
    (h : ∃ e ∈ idx.entries, e.1 ≠ key) :
    ∃ e ∈ idx.entries, e.1 ≠ key ∧ idx.shortestUniquePrefixLen key = commonHexLen key e.1 + 1 := by
  obtain ⟨nb, hval, hnb, hcover⟩ := idx.exists_neighbours key
  obtain ⟨e, he, hne⟩ := h
  obtain ⟨c, hc, -⟩ := hcover e he hne
  obtain ⟨a, ha⟩ := Option.isSome_iff_exists.mp
    (List.isSome_max?_of_mem (List.mem_map_of_mem (fun e => commonHexLen key e.1 + 1) hc))
  obtain ⟨c', hc', rfl⟩ := List.mem_map.mp (List.max?_eq_some_iff'.mp ha).1
  exact ⟨c', (hnb c' hc').1, (hnb c' hc').2, by rw [hval, ha]; rfl⟩

/-- Over any sorting of `vec`, `shortest_unique_prefix_len key` is one more than the most
hex digits `key` shares with a stored key other than itself, and `0` if there is none. -/
theorem shortestUniquePrefixLen_spec (vec : List (List (Fin 256) × V)) (idx : IdIndex V)
    (hperm : idx.entries.Perm vec) (key : List (Fin 256)) :
    ((∀ e ∈ vec, e.1 = key) → idx.shortestUniquePrefixLen key = 0) ∧
    (∀ e ∈ vec, e.1 ≠ key → commonHexLen key e.1 + 1 ≤ idx.shortestUniquePrefixLen key) ∧
    ((∃ e ∈ vec, e.1 ≠ key) →
      ∃ e ∈ vec, e.1 ≠ key ∧ idx.shortestUniquePrefixLen key = commonHexLen key e.1 + 1) := by
  have hmem : ∀ e, e ∈ idx.entries ↔ e ∈ vec := fun e => hperm.mem_iff
  refine ⟨fun h => idx.shortestUniquePrefixLen_eq_zero fun e he => h e ((hmem e).mp he),
    fun e he hne => idx.commonHexLen_lt_shortestUniquePrefixLen ((hmem e).mpr he) hne,
    fun ⟨e, he, hne⟩ => ?_⟩
  obtain ⟨e', he', hne', heq⟩ := idx.exists_shortestUniquePrefixLen_eq ⟨e, (hmem e).mpr he, hne⟩
  exact ⟨e', (hmem e').mp he', hne', heq⟩

example : (fromVec shortestTestEntries).shortestUniquePrefixLen [0xa0] = 2 := by decide
example : (fromVec shortestTestEntries).shortestUniquePrefixLen [0xc0] = 1 := by decide
example : (fromVec ([] : List (List (Fin 256) × Unit))).shortestUniquePrefixLen [0x00] = 0 := by
  decide

/-- The shortest unique prefix of `acd0` in the test table. -/
theorem shortestUniquePrefixLen_spec_test :
    (fromVec shortestTestEntries).entries.Perm shortestTestEntries ∧
    (((∀ e ∈ shortestTestEntries, e.1 = [0xac, 0xd0]) →
        (fromVec shortestTestEntries).shortestUniquePrefixLen [0xac, 0xd0] = 0) ∧
      (∀ e ∈ shortestTestEntries, e.1 ≠ [0xac, 0xd0] →
        commonHexLen [0xac, 0xd0] e.1 + 1 ≤
          (fromVec shortestTestEntries).shortestUniquePrefixLen [0xac, 0xd0]) ∧
      ((∃ e ∈ shortestTestEntries, e.1 ≠ [0xac, 0xd0]) →
        ∃ e ∈ shortestTestEntries, e.1 ≠ [0xac, 0xd0] ∧
          (fromVec shortestTestEntries).shortestUniquePrefixLen [0xac, 0xd0] =
            commonHexLen [0xac, 0xd0] e.1 + 1)) :=
  ⟨fromVec_perm _, shortestUniquePrefixLen_spec _ _ (fromVec_perm _) _⟩

/-! ### The order among equal keys -/

section Perm

variable {idx₁ idx₂ : IdIndex V} (h : idx₁.entries.Perm idx₂.entries)
include h

theorem shortestUniquePrefixLen_eq_of_perm (key : List (Fin 256)) :
    idx₁.shortestUniquePrefixLen key = idx₂.shortestUniquePrefixLen key := by
  by_cases hex : ∃ e ∈ idx₁.entries, e.1 ≠ key
  · obtain ⟨e₁, he₁, hne₁, hv₁⟩ := idx₁.exists_shortestUniquePrefixLen_eq hex
    obtain ⟨e₂, he₂, hne₂, hv₂⟩ :=
      idx₂.exists_shortestUniquePrefixLen_eq ⟨e₁, h.subset he₁, hne₁⟩
    have h₁ := idx₁.commonHexLen_lt_shortestUniquePrefixLen (h.symm.subset he₂) hne₂
    have h₂ := idx₂.commonHexLen_lt_shortestUniquePrefixLen (h.subset he₁) hne₁
    omega
  · push_neg at hex
    rw [idx₁.shortestUniquePrefixLen_eq_zero hex,
      idx₂.shortestUniquePrefixLen_eq_zero fun e he => hex e (h.symm.subset he)]

theorem resolvePrefixWith_agree_of_perm (p : HexPrefix) (f : V → U) :
    (idx₁.resolvePrefixWith p f).Agree (idx₂.resolvePrefixWith p f) := by
  by_cases hm : ∃ e ∈ idx₁.entries, p.matches e.1
  · obtain ⟨e, he, hme⟩ := hm
    by_cases hk : ∀ e' ∈ idx₁.entries, p.matches e'.1 = true → e'.1 = e.1
    · rw [idx₁.resolvePrefixWith_of_matches_eq f he hme hk,
        idx₂.resolvePrefixWith_of_matches_eq f (h.subset he) hme fun e' he' =>
          hk e' (h.symm.subset he')]
      exact (h.filter _).map _
    · push_neg at hk
      obtain ⟨e', he', hme', hne⟩ := hk
      rw [idx₁.resolvePrefixWith_of_matches_ne f he' he hme' hme hne,
        idx₂.resolvePrefixWith_of_matches_ne f (h.subset he') (h.subset he) hme' hme hne]
      trivial
  · push_neg at hm
    rw [idx₁.resolvePrefixWith_of_forall_not_matches f fun e he => by simpa using hm e he,
      idx₂.resolvePrefixWith_of_forall_not_matches f fun e he => by
        simpa using hm e (h.symm.subset he)]
    trivial

end Perm

/-! ### Fewer entries -/

section Subset

variable {idx₁ idx₂ : IdIndex V} (h : idx₁.entries ⊆ idx₂.entries)
include h

/-- Every key that makes a prefix of `key` ambiguous among fewer entries does so among
more. -/
theorem shortestUniquePrefixLen_le_of_subset (key : List (Fin 256)) :
    idx₁.shortestUniquePrefixLen key ≤ idx₂.shortestUniquePrefixLen key := by
  by_cases hex : ∃ e ∈ idx₁.entries, e.1 ≠ key
  · obtain ⟨e, he, hne, hv⟩ := idx₁.exists_shortestUniquePrefixLen_eq hex
    have := idx₂.commonHexLen_lt_shortestUniquePrefixLen (h he) hne
    omega
  · push_neg at hex
    rw [idx₁.shortestUniquePrefixLen_eq_zero hex]
    exact Nat.zero_le _

theorem resolvePrefixWith_ne_ambiguous_of_subset {p : HexPrefix} {f : V → U}
    (h₂ : idx₂.resolvePrefixWith p f ≠ .ambiguousMatch) :
    idx₁.resolvePrefixWith p f ≠ .ambiguousMatch := fun h₁ =>
  let ⟨_, he₁, _, he₂, hm₁, hm₂, hne⟩ := idx₁.exists_matches_ne_of_ambiguous h₁
  h₂ (idx₂.resolvePrefixWith_of_matches_ne f (h he₁) (h he₂) hm₁ hm₂ hne)

end Subset

/-- `sort_unstable_by` may leave the values of one key in any order; lookups do not see
it. Over two sortings of the same entries, shortest unique prefixes are equal, and a prefix
resolves alike, a single match to the same values in some order. -/
theorem lookups_agree_of_perm (idx₁ idx₂ : IdIndex V) (h : idx₁.entries.Perm idx₂.entries) :
    (∀ key, idx₁.shortestUniquePrefixLen key = idx₂.shortestUniquePrefixLen key) ∧
    ∀ (p : HexPrefix) (f : V → U),
      (idx₁.resolvePrefixWith p f).Agree (idx₂.resolvePrefixWith p f) :=
  ⟨shortestUniquePrefixLen_eq_of_perm h, resolvePrefixWith_agree_of_perm h⟩

/-- The test table sorted with the two values of `0099` the other way round. -/
def prefixTestSwapped : IdIndex Nat where
  entries := [([0x00, 0x00], 0), ([0x00, 0x99], 2), ([0x00, 0x99], 1), ([0x0a, 0xaa], 3),
    ([0x0a, 0xab], 4)]
  sorted := by decide

theorem lookups_agree_of_perm_test :
    (fromVec prefixTestEntries).entries.Perm prefixTestSwapped.entries ∧
    (∀ key, (fromVec prefixTestEntries).shortestUniquePrefixLen key =
      prefixTestSwapped.shortestUniquePrefixLen key) ∧
    ∀ (p : HexPrefix) (f : Nat → Nat),
      ((fromVec prefixTestEntries).resolvePrefixWith p f).Agree
        (prefixTestSwapped.resolvePrefixWith p f) :=
  ⟨by decide, lookups_agree_of_perm _ _ (by decide)⟩

end IdIndex

end RevsetEngine
