import Mathlib.Data.List.Perm.Subperm
import Mathlib.Order.MinMax
import RevsetEngine.Evaluate

/-!
`take_latest_revset`. After each candidate the heap holds the greatest `count` items seen
so far, so `peek_mut().unwrap()` always finds an item and the `assert!` holds, and the
heap ends with the items that sorting every candidate by descending
`(timestamp, position)` and taking the first `count` selects. The timestamps are the
committers' of the commits the store holds; `make_rev_item` panics on a commit it lacks.
-/

namespace RevsetEngine

theorem Item.lt_iff {a b : Item} :
    a < b ↔ a.timestamp < b.timestamp ∨ a.timestamp = b.timestamp ∧ a.entry < b.entry := by
  show a.key < b.key ↔ _
  simp [Item.key, Prod.Lex.lt_iff]

theorem sorted_mergeSort_ge {α : Type} [LinearOrder α] (l : List α) :
    (l.mergeSort fun a b => decide (b ≤ a)).Sorted (· ≥ ·) :=
  (@List.sorted_mergeSort α (fun a b => decide (b ≤ a)) (fun _ _ _ hab hbc => decide_eq_true
      (le_trans (of_decide_eq_true hbc) (of_decide_eq_true hab)))
    (fun a b => by simp [le_total b a]) l).imp of_decide_eq_true

theorem sorted_gt_of_ge {l : List Nat} (hs : l.Sorted (· ≥ ·)) (hn : l.Nodup) :
    l.Sorted (· > ·) :=
  (hs.and hn).imp fun h => Nat.lt_of_le_of_ne h.1 (Ne.symm h.2)

/-- `heap` holds the greatest `min k seen.length` of the distinct items `seen`. -/
def IsLatest (k : Nat) (seen heap : List Item) : Prop :=
  heap.Nodup ∧ heap ⊆ seen ∧ heap.length = min k seen.length ∧
    ∀ h ∈ heap, ∀ i ∈ seen, i ∉ heap → i < h

theorem isLatest_take (k : Nat) {items : List Item} (h : items.Nodup) :
    IsLatest k (items.take k) (items.take k) :=
  ⟨h.sublist (List.take_sublist _ _), fun _ hx => hx, by simp,
    fun _ _ _ hi hn => absurd hi hn⟩

/-- One candidate past the first `k`: the heap, full with `k ≥ 1` items, has a least item,
and keeps the greatest `k` of what it has seen. -/
theorem replaceEarliest_isLatest {k : Nat} {seen heap : List Item} {item : Item}
    (hnd : (seen ++ [item]).Nodup) (hk : 0 < k) (hl : heap.length = k)
    (h : IsLatest k seen heap) :
    ∃ heap', EvaluationContext.replaceEarliest heap item = some heap' ∧
      IsLatest k (seen ++ [item]) heap' ∧ heap'.length = k := by
  obtain ⟨hnodup, hsub, hlen, htop⟩ := h
  have hne : heap ≠ [] := by rintro rfl; simp at hl; omega
  obtain ⟨m, hm⟩ := Option.ne_none_iff_exists'.mp (mt List.min?_eq_none_iff.mp hne)
  have hmem : m ∈ heap := List.min?_mem min_choice hm
  have hmin : ∀ b ∈ heap, m ≤ b :=
    (List.le_min?_iff (fun _ _ _ => le_min_iff) hm).mp le_rfl
  have hitem : item ∉ seen := fun hi =>
    (List.nodup_append.mp hnd).2.2 hi (List.mem_singleton_self item)
  have hk' : min k (seen ++ [item]).length = k := by
    have : k ≤ seen.length := by omega
    simp only [List.length_append, List.length_singleton]; omega
  have hseen : ∀ i ∈ seen ++ [item], i ∈ seen ∨ i = item := by simp
  by_cases hlt : m < item
  · have hlen' : (item :: heap.erase m).length = k := by
      rw [List.length_cons, List.length_erase_of_mem hmem]; omega
    refine ⟨item :: heap.erase m, by simp [EvaluationContext.replaceEarliest, hm, hlt],
      ⟨?_, ?_, hk'.symm ▸ hlen', fun h hh i hi hni => ?_⟩, hlen'⟩
    · exact List.nodup_cons.mpr ⟨fun hi => hitem (hsub (List.mem_of_mem_erase hi)),
        hnodup.erase m⟩
    · exact List.cons_subset.mpr ⟨by simp,
        fun x hx => List.mem_append_left _ (hsub (List.mem_of_mem_erase hx))⟩
    · -- what left the heap is at most the least item, which is below what stays
      have hi' : i ∈ seen :=
        (hseen i hi).resolve_right fun he => hni (he ▸ List.mem_cons_self _ _)
      have him : i ≤ m := by
        by_cases hih : i ∈ heap
        · exact le_of_eq (by_contra fun hne =>
            hni (List.mem_cons_of_mem _ (hnodup.mem_erase_iff.mpr ⟨hne, hih⟩)))
        · exact le_of_lt (htop m hmem i hi' hih)
      have hmh : m < h := by
        rcases List.mem_cons.mp hh with rfl | hh
        · exact hlt
        · obtain ⟨hne, hh⟩ := hnodup.mem_erase_iff.mp hh
          exact lt_of_le_of_ne (hmin h hh) (Ne.symm hne)
      exact lt_of_le_of_lt him hmh
  · refine ⟨heap, by simp [EvaluationContext.replaceEarliest, hm, hlt],
      ⟨hnodup, fun x hx => List.mem_append_left _ (hsub hx), hk'.symm ▸ hl,
        fun h hh i hi hni => ?_⟩, hl⟩
    rcases hseen i hi with hi | rfl
    · exact htop h hh i hi hni
    · have hne : i ≠ m := fun he => hitem (he ▸ hsub hmem)
      exact lt_of_lt_of_le (lt_of_le_of_ne (not_lt.mp hlt) hne) (hmin h hh)

/-- The replacement loop over the candidates past the first `k`. -/
theorem foldlM_replaceEarliest_isLatest {k : Nat} (hk : 0 < k) :
    ∀ (rest seen heap : List Item), (seen ++ rest).Nodup → IsLatest k seen heap →
      (rest = [] ∨ heap.length = k) →
      ∃ heap', rest.foldlM EvaluationContext.replaceEarliest heap = some heap' ∧
        IsLatest k (seen ++ rest) heap'
  | [], seen, heap, _, h, _ => ⟨heap, rfl, by simpa using h⟩
  | item :: rest, seen, heap, hnd, h, hl => by
      have hl : heap.length = k := hl.resolve_left (List.cons_ne_nil _ _)
      have hnd' : (seen ++ [item] ++ rest).Nodup := by simpa using hnd
      obtain ⟨heap', hstep, h', hl'⟩ := replaceEarliest_isLatest
        (hnd'.sublist (List.sublist_append_left _ _)) hk hl h
      obtain ⟨heap'', hfold, h''⟩ :=
        foldlM_replaceEarliest_isLatest hk rest _ heap' hnd' h' (Or.inr hl')
      exact ⟨heap'', by simp [List.foldlM_cons, hstep, hfold], by simpa using h''⟩

/-- Two heaps holding the greatest `k` of the same distinct items hold the same items. -/
theorem isLatest_perm {k : Nat} {items a b : List Item} (ha : IsLatest k items a)
    (hb : IsLatest k items b) : a.Perm b := by
  obtain ⟨hna, hsa, hla, hta⟩ := ha
  obtain ⟨hnb, hsb, hlb, htb⟩ := hb
  have hab : ∀ x ∈ a, x ∈ b := by
    intro x hx
    by_contra hxb
    by_cases hex : ∃ y ∈ b, y ∉ a
    · obtain ⟨y, hy, hya⟩ := hex
      exact lt_asymm (hta x hx y (hsb hy) hya) (htb y hy x (hsa hx) hxb)
    · push_neg at hex
      have hperm := (List.subperm_of_subset hnb hex).perm_of_length_le (by omega)
      exact hxb (hperm.mem_iff.mpr hx)
  exact (List.subperm_of_subset hna hab).perm_of_length_le (by omega)

/-- The first `k` of the distinct items sorted descending are their greatest `k`. -/
theorem isLatest_sorted_take (k : Nat) {items : List Item} (h : items.Nodup) :
    IsLatest k items ((items.mergeSort fun a b => decide (b ≤ a)).take k) := by
  have hperm := List.mergeSort_perm items fun a b => decide (b ≤ a)
  have hsorted := sorted_mergeSort_ge items
  set sorted := items.mergeSort fun a b => decide (b ≤ a)
  have hnd : sorted.Nodup := hperm.nodup_iff.mpr h
  refine ⟨hnd.sublist (List.take_sublist _ _),
    fun x hx => hperm.mem_iff.mp (List.mem_of_mem_take hx),
    by simp [hperm.length_eq], fun x hx i hi hni => ?_⟩
  rw [← List.take_append_drop k sorted] at hsorted hnd
  have hi' : i ∈ sorted.drop k := by
    rcases List.mem_append.mp ((List.take_append_drop k sorted).symm ▸ hperm.mem_iff.mpr hi)
      with hi | hi
    · exact absurd hi hni
    · exact hi
  have hle : i ≤ x := (List.pairwise_append.mp hsorted).2.2 x hx i hi'
  exact lt_of_le_of_ne hle fun he => (List.nodup_append.mp hnd).2.2 hx (he ▸ hi')

/-- A seen item is kept exactly when fewer than `k` seen items are greater. -/
theorem IsLatest.mem_iff {k : Nat} {seen heap : List Item} (h : IsLatest k seen heap)
    (hnd : seen.Nodup) {i : Item} (hi : i ∈ seen) :
    i ∈ heap ↔ (seen.filter fun j => decide (i < j)).length < k := by
  obtain ⟨hnodup, hsub, hlen, htop⟩ := h
  constructor
  · intro hih
    -- a greater item left out of the heap would be below `i`
    have hgreater : (seen.filter fun j => decide (i < j)) ⊆ heap.erase i := fun j hj => by
      rw [List.mem_filter, decide_eq_true_eq] at hj
      have hjh : j ∈ heap := by_contra fun hjh => lt_asymm hj.2 (htop i hih j hj.1 hjh)
      exact hnodup.mem_erase_iff.mpr ⟨ne_of_gt hj.2, hjh⟩
    have hle := (List.subperm_of_subset (hnd.filter _) hgreater).length_le
    rw [List.length_erase_of_mem hih] at hle
    have := List.length_pos_of_mem hih
    omega
  · intro hlt
    by_contra hih
    -- every kept item is above `i`, so the heap is short, so it holds every seen item
    have hkept : heap ⊆ seen.filter fun j => decide (i < j) := fun j hj =>
      List.mem_filter.mpr ⟨hsub hj, decide_eq_true (htop j hj i hi hih)⟩
    have hle := (List.subperm_of_subset hnodup hkept).length_le
    have hall := (List.subperm_of_subset hnodup hsub).perm_of_length_le (by omega)
    exact hih (hall.mem_iff.mpr hi)

/-- `Item`s compare as their `(timestamp, position)` pairs do. -/
@[simp]
theorem Item.mk_lt_mk {t t' : MillisSinceEpoch} {e e' : Nat} :
    Item.mk t e < Item.mk t' e' ↔ toLex (t, e) < toLex (t', e') :=
  Iff.rfl

/-- The selection the spec describes: every candidate sorted by descending
`(timestamp, position)`, the first `count` kept, then sorted by descending position. -/
def latestBySort (timestamp : Nat → MillisSinceEpoch) (candidates : List Nat) (count : Nat) :
    List Nat :=
  ((((candidates.map fun c => toLex (timestamp c, c)).mergeSort fun a b => decide (b ≤ a)).take
    count).map fun key => (ofLex key).2).mergeSort fun a b => decide (b ≤ a)

/-- Sorting the pairs is sorting the items they key. -/
theorem latestBySort_eq (timestamp : Nat → MillisSinceEpoch) (candidates : List Nat)
    (count : Nat) :
    latestBySort timestamp candidates count =
      (((((candidates.map fun c => Item.mk (timestamp c) c).mergeSort
        fun a b => decide (b ≤ a)).take count).map Item.entry).mergeSort
          fun a b => decide (b ≤ a)) := by
  set items := candidates.map fun c => Item.mk (timestamp c) c
  have hkeys : (candidates.map fun c => toLex (timestamp c, c)) = items.map Item.key := by
    rw [List.map_map]
    rfl
  have hsort : (items.mergeSort fun a b => decide (b ≤ a)).map Item.key =
      (items.map Item.key).mergeSort fun a b => decide (b ≤ a) :=
    List.map_mergeSort fun _ _ _ _ => rfl
  rw [latestBySort, hkeys, ← hsort, ← List.map_take, List.map_map]
  rfl

namespace EvaluationContext

variable (ctx : EvaluationContext)

/-- The committer timestamp of the commit at `entry`, read from the store. -/
def committerTimestamp (entry : Nat) : Option MillisSinceEpoch :=
  (ctx.store.getCommit (ctx.compositeIndex.commitId entry)).map fun commit =>
    commit.committer.timestamp

theorem makeRevItem_eq (entry : Nat) :
    ctx.makeRevItem entry = (ctx.committerTimestamp entry).map fun t => Item.mk t entry := by
  simp only [makeRevItem, committerTimestamp]
  cases ctx.store.getCommit (ctx.compositeIndex.commitId entry) <;> rfl

/-- Candidates whose commits the store holds have timestamps. -/
theorem exists_timestamp {candidates : List Nat}
    (h : ∀ c ∈ candidates, (ctx.committerTimestamp c).isSome) :
    ∃ timestamp : Nat → MillisSinceEpoch,
      ∀ c ∈ candidates, ctx.committerTimestamp c = some (timestamp c) :=
  ⟨fun c => (ctx.committerTimestamp c).getD 0, fun c hc => by
    obtain ⟨t, ht⟩ := Option.isSome_iff_exists.mp (h c hc)
    simp only [ht, Option.getD_some]⟩

section Items

variable {ctx} {timestamp : Nat → MillisSinceEpoch}

theorem mk_injective : Function.Injective fun c => Item.mk (timestamp c) c :=
  fun _ _ h => congrArg Item.entry h

/-- Every candidate's commit in the store, `make_rev_item` panics on none of them. -/
theorem mapM_makeRevItem {candidates : List Nat}
    (hts : ∀ c ∈ candidates, ctx.committerTimestamp c = some (timestamp c)) :
    candidates.mapM ctx.makeRevItem = some (candidates.map fun c => Item.mk (timestamp c) c) := by
  induction candidates with
  | nil => rfl
  | cons c cs ih =>
    rw [List.mapM_cons, ih fun c' hc' => hts c' (List.mem_cons_of_mem c hc'), makeRevItem_eq,
      hts c (List.mem_cons_self c cs)]
    rfl

theorem entries_nodup_of_isLatest {k : Nat} {candidates : List Nat} {heap : List Item}
    (h : IsLatest k (candidates.map fun c => Item.mk (timestamp c) c) heap) :
    (heap.map Item.entry).Nodup :=
  h.1.map_on fun x hx y hy he => by
    obtain ⟨_, _, rfl⟩ := List.mem_map.mp (h.2.1 hx)
    obtain ⟨_, _, rfl⟩ := List.mem_map.mp (h.2.1 hy)
    dsimp only at he
    rw [he]

end Items

/-- Past a zero count, with every candidate's commit in the store, the replacement loop
never panics, the assertion holds, and the result is the sorted entries of a heap
holding the `count` greatest candidates. -/
theorem takeLatestRevset_heap (candidateSet : InternalRevset) {count : Nat} (hk : 0 < count)
    (hnd : (candidateSet.iter ctx.compositeIndex).Nodup) {timestamp : Nat → MillisSinceEpoch}
    (hts : ∀ c ∈ candidateSet.iter ctx.compositeIndex,
      ctx.committerTimestamp c = some (timestamp c)) :
    ∃ heap, IsLatest count
        ((candidateSet.iter ctx.compositeIndex).map fun c => Item.mk (timestamp c) c) heap ∧
      ctx.takeLatestRevset candidateSet count =
        some (.eager ((heap.map Item.entry).mergeSort fun a b => decide (b ≤ a))) := by
  have hmap := mapM_makeRevItem hts
  set items := (candidateSet.iter ctx.compositeIndex).map fun c => Item.mk (timestamp c) c
  have hitems : items.Nodup := hnd.map mk_injective
  have hfill : items.drop count = [] ∨ (items.take count).length = count := by
    rcases Nat.lt_or_ge count items.length with h | h
    · exact Or.inr (List.length_take_of_le (Nat.le_of_lt h))
    · exact Or.inl (List.drop_eq_nil_of_le h)
  obtain ⟨heap, hfold, hheap⟩ := foldlM_replaceEarliest_isLatest hk (items.drop count)
    (items.take count) (items.take count) (by rwa [List.take_append_drop])
    (isLatest_take count hitems) hfill
  rw [List.take_append_drop] at hheap
  have hguard : heap.length ≤ count := hheap.2.2.1 ▸ Nat.min_le_left _ _
  refine ⟨heap, hheap, ?_⟩
  rw [takeLatestRevset, if_neg (Nat.pos_iff_ne_zero.mp hk), hmap]
  simp only [Option.bind_eq_bind, Option.some_bind, hfold, if_pos hguard]
  rfl

/-- Past a zero count, a candidate whose commit the store lacks makes `make_rev_item`'s
`unwrap` panic. -/
theorem takeLatestRevset_panics (candidateSet : InternalRevset) {count : Nat} (hk : 0 < count)
    {c : Nat} (hc : c ∈ candidateSet.iter ctx.compositeIndex)
    (hmissing : ctx.committerTimestamp c = none) :
    ctx.takeLatestRevset candidateSet count = none := by
  have hpanic : ∀ cs : List Nat, c ∈ cs → cs.mapM ctx.makeRevItem = none := by
    intro cs hcs
    induction cs with
    | nil => exact absurd hcs (List.not_mem_nil c)
    | cons c' cs ih =>
      rw [List.mapM_cons]
      rcases List.mem_cons.mp hcs with rfl | hcs
      · rw [makeRevItem_eq, hmissing]
        rfl
      · rw [ih hcs]
        cases ctx.makeRevItem c' <;> rfl
  rw [takeLatestRevset, if_neg (Nat.pos_iff_ne_zero.mp hk), hpanic _ hc]
  rfl

/-- Position `7` lies past the chain's store: a positive count panics, a zero count does
not read the store. -/
example : chainContext.takeLatestRevset (.eager [7, 4]) 1 = none ∧
    chainContext.takeLatestRevset (.eager [7, 4]) 0 = some (.eager []) :=
  ⟨rfl, rfl⟩

/-- What the heap pass returns over distinct candidates is an eager set in strictly
descending order. -/
theorem takeLatestRevset_sorted {candidateSet S : InternalRevset} {count : Nat}
    (hnd : (candidateSet.iter ctx.compositeIndex).Nodup)
    (h : ctx.takeLatestRevset candidateSet count = some S) :
    ∃ entries, S = .eager entries ∧ entries.Sorted (· > ·) := by
  rcases Nat.eq_zero_or_pos count with rfl | hk
  · simp only [takeLatestRevset, if_pos, Option.some.injEq] at h
    exact ⟨[], h.symm, List.sorted_nil⟩
  -- the pass returned, so the store held every candidate's commit
  obtain ⟨timestamp, hts⟩ := ctx.exists_timestamp fun c hc => by
    cases hm : ctx.committerTimestamp c with
    | none => rw [ctx.takeLatestRevset_panics candidateSet hk hc hm] at h; cases h
    | some _ => rfl
  obtain ⟨heap, hheap, heq⟩ := ctx.takeLatestRevset_heap candidateSet hk hnd hts
  rw [heq, Option.some.injEq] at h
  exact ⟨_, h.symm, sorted_gt_of_ge (sorted_mergeSort_ge _)
    ((List.mergeSort_perm _ _).nodup_iff.mpr (entries_nodup_of_isLatest hheap))⟩

/-- With every candidate's commit in the store, the heap pass never panics, keeps the
`min count n` greatest candidates by `(committer timestamp, position)`, yields them by
strictly descending position, and agrees with sorting every candidate. -/
theorem takeLatestRevset_spec (candidateSet : InternalRevset) (count : Nat)
    (hnd : (candidateSet.iter ctx.compositeIndex).Nodup) (timestamp : Nat → MillisSinceEpoch)
    (hts : ∀ c ∈ candidateSet.iter ctx.compositeIndex,
      (ctx.store.getCommit (ctx.compositeIndex.commitId c)).map
        (fun commit => commit.committer.timestamp) = some (timestamp c)) :
    ∃ entries, ctx.takeLatestRevset candidateSet count = some (.eager entries) ∧
      entries = latestBySort timestamp (candidateSet.iter ctx.compositeIndex) count ∧
      entries.Sorted (· > ·) ∧
      entries.length = min count (candidateSet.iter ctx.compositeIndex).length ∧
      (∀ e ∈ entries, e ∈ candidateSet.iter ctx.compositeIndex) ∧
      ∀ e ∈ entries, ∀ c ∈ candidateSet.iter ctx.compositeIndex, c ∉ entries →
        toLex (timestamp c, c) < toLex (timestamp e, e) := by
  set candidates := candidateSet.iter ctx.compositeIndex
  set items := candidates.map fun c => Item.mk (timestamp c) c
  rcases Nat.eq_zero_or_pos count with rfl | hk
  · exact ⟨[], by simp [takeLatestRevset], by simp [latestBySort], List.sorted_nil,
      by simp, by simp, by simp⟩
  obtain ⟨heap, hheap, heq⟩ := ctx.takeLatestRevset_heap candidateSet hk hnd hts
  have hperm : (heap.map Item.entry).Perm
      (((items.mergeSort fun a b => decide (b ≤ a)).take count).map Item.entry) :=
    (isLatest_perm hheap (isLatest_sorted_take count (hnd.map mk_injective))).map _
  have hnodup := entries_nodup_of_isLatest hheap
  obtain ⟨-, hsub, hlen, htop⟩ := hheap
  set entries := (heap.map Item.entry).mergeSort fun a b => decide (b ≤ a)
  have hmem : ∀ e, e ∈ entries ↔ ∃ h ∈ heap, h.entry = e := fun e =>
    ((List.mergeSort_perm _ _).mem_iff).trans List.mem_map
  refine ⟨entries, heq, (latestBySort_eq timestamp candidates count).symm ▸
    List.eq_of_perm_of_sorted (((List.mergeSort_perm _ _).trans hperm).trans
      (List.mergeSort_perm _ _).symm) (sorted_mergeSort_ge _) (sorted_mergeSort_ge _),
    sorted_gt_of_ge (sorted_mergeSort_ge _) ((List.mergeSort_perm _ _).nodup_iff.mpr hnodup),
    by simp [entries, List.length_mergeSort, hlen, items], fun e he => ?_,
    fun e he c hc hce => ?_⟩
  · obtain ⟨h, hh, rfl⟩ := (hmem e).mp he
    obtain ⟨c, hc, rfl⟩ := List.mem_map.mp (hsub hh)
    exact hc
  · obtain ⟨h, hh, rfl⟩ := (hmem e).mp he
    obtain ⟨e, -, rfl⟩ := List.mem_map.mp (hsub hh)
    have hci : Item.mk (timestamp c) c ∉ heap := fun hci => hce ((hmem c).mpr ⟨_, hci, rfl⟩)
    exact htop _ hh _ (List.mem_map_of_mem _ hc) hci

/-- The two latest of four chain commits committed at `4 % 3`, `3 % 3`, `1 % 3`, `0 % 3`. -/
theorem takeLatestRevset_spec_chain :
    ((InternalRevset.eager [4, 3, 1, 0]).iter chainContext.compositeIndex).Nodup ∧
      (∀ c ∈ (InternalRevset.eager [4, 3, 1, 0]).iter chainContext.compositeIndex,
        (chainContext.store.getCommit (chainContext.compositeIndex.commitId c)).map
          (fun commit => commit.committer.timestamp) = some ((c % 3 : Nat) : Int)) ∧
      ∃ entries, chainContext.takeLatestRevset (.eager [4, 3, 1, 0]) 2 = some (.eager entries) ∧
        entries = latestBySort (fun c => ((c % 3 : Nat) : Int)) [4, 3, 1, 0] 2 ∧
        entries.Sorted (· > ·) ∧
        entries.length = min 2 [4, 3, 1, 0].length ∧ (∀ e ∈ entries, e ∈ [4, 3, 1, 0]) ∧
        ∀ e ∈ entries, ∀ c ∈ [4, 3, 1, 0], c ∉ entries →
          toLex (((c % 3 : Nat) : Int), c) < toLex (((e % 3 : Nat) : Int), e) :=
  ⟨by decide, by decide, takeLatestRevset_spec chainContext (.eager [4, 3, 1, 0]) 2 (by decide)
    (fun c => ((c % 3 : Nat) : Int)) (by decide)⟩

end EvaluationContext

end RevsetEngine
