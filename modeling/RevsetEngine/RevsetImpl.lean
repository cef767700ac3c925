import RevsetEngine.Evaluate
import RevsetEngine.IdIndex

/-!
The evaluated revset handed to callers and the change-id index it builds. The index
keys every member's position by its change id, so the shortest unique prefix it reports
for a member's change id is exactly the shortest hex prefix that resolves back to that
change id's commits.
-/

namespace RevsetEngine

/-- `RevsetImpl`: an evaluated revset with the index it was evaluated against. -/
structure RevsetImpl where
  inner : InternalRevset
  index : CompositeIndex

/-- `ChangeIdIndexImpl`: the members' positions keyed by change id. -/
structure ChangeIdIndexImpl where
  index : CompositeIndex
  posByChange : IdIndex Nat

/-- The top-level `evaluate`: the expression evaluated in a context over the store, the
index and the visible heads. -/
def evaluate (expression : RevsetExpression) (store : Store) (compositeIndex : CompositeIndex)
    (visibleHeads : List CommitId) : Eval RevsetImpl := do
  let context : EvaluationContext := ⟨store, compositeIndex, visibleHeads⟩
  let internalRevset ← context.evaluate expression
  pure ⟨internalRevset, compositeIndex⟩

namespace RevsetImpl

variable (r : RevsetImpl)

/-- `Revset::iter`: the members' commit ids. -/
def iter : List CommitId :=
  (r.inner.iter r.index).map r.index.commitId

/-- `is_empty`: the iterator yields nothing. -/
def isEmpty : Bool :=
  r.iter.head?.isNone

/-- `change_id_index`: every member's change id with its position. -/
def changeIdIndex : ChangeIdIndexImpl where
  index := r.index
  posByChange := IdIndex.fromVec ((r.inner.iter r.index).map fun entry =>
    (r.index.changeId entry, entry))

end RevsetImpl

namespace ChangeIdIndexImpl

variable (c : ChangeIdIndexImpl)

/-- `resolve_prefix`: the commit ids of the positions under the one matching change id. -/
def resolvePrefix (p : HexPrefix) : PrefixResolution (List CommitId) :=
  c.posByChange.resolvePrefixWith p fun pos => c.index.commitId pos

/-- `shortest_unique_prefix_len`. -/
def shortestUniquePrefixLen (changeId : ChangeId) : Nat :=
  c.posByChange.shortestUniquePrefixLen changeId

end ChangeIdIndexImpl

namespace RevsetImpl

/-- The shortest unique prefix of a member's change id is the shortest prefix of it that
resolves back to that change id: every shorter one is ambiguous, and every longer one up
to the whole id resolves to the commits of the members with that change id. -/
theorem resolvePrefix_shortestUniquePrefixLen (S : RevsetImpl) (c : ChangeId)
    (hc : ∃ x ∈ S.inner.iter S.index, S.index.changeId x = c) :
    (∀ m < S.changeIdIndex.shortestUniquePrefixLen c,
      S.changeIdIndex.resolvePrefix ⟨(hexDigits c).take m⟩ = .ambiguousMatch) ∧
    ∀ m, S.changeIdIndex.shortestUniquePrefixLen c ≤ m → m ≤ 2 * c.length →
      ∃ vs, S.changeIdIndex.resolvePrefix ⟨(hexDigits c).take m⟩ = .singleMatch vs ∧
        vs.Perm (((S.inner.iter S.index).filter fun x => S.index.changeId x = c).map
          S.index.commitId) := by
  obtain ⟨x, hx, hxc⟩ := hc
  have hperm := IdIndex.fromVec_perm ((S.inner.iter S.index).map fun entry =>
    (S.index.changeId entry, entry))
  simp only [changeIdIndex, ChangeIdIndexImpl.resolvePrefix,
    ChangeIdIndexImpl.shortestUniquePrefixLen]
  generalize IdIndex.fromVec _ = idx at hperm
  have hxe : (c, x) ∈ idx.entries := hperm.mem_iff.mpr (List.mem_map.mpr ⟨x, hx, by rw [hxc]⟩)
  have hself : ∀ m, HexPrefix.matches ⟨(hexDigits c).take m⟩ c = true := fun m =>
    (matches_iff _ _).mpr (List.take_prefix m _)
  constructor
  · intro m hm
    by_cases hall : ∀ e ∈ idx.entries, e.1 = c
    · rw [idx.shortestUniquePrefixLen_eq_zero hall] at hm
      exact absurd hm (Nat.not_lt_zero m)
    · push_neg at hall
      obtain ⟨e, he, hne, heq⟩ := idx.exists_shortestUniquePrefixLen_eq hall
      have hle : m ≤ commonHexLen c e.1 := by omega
      have hlen : m ≤ 2 * c.length := hle.trans (le_commonHexLen_iff.mp le_rfl).1
      exact idx.resolvePrefixWith_of_matches_ne _ hxe he (hself m)
        ((matches_take_iff hlen).mpr hle) (Ne.symm hne)
  · intro m hn hlen
    have hk : ∀ e ∈ idx.entries, HexPrefix.matches ⟨(hexDigits c).take m⟩ e.1 = true →
        e.1 = c := fun e he hm => by
      by_contra hne
      have hlt := idx.commonHexLen_lt_shortestUniquePrefixLen he hne
      have hge := (matches_take_iff hlen).mp hm
      omega
    refine ⟨_, idx.resolvePrefixWith_of_matches_eq _ hxe (hself m) hk, ?_⟩
    simpa [List.filter_map, Function.comp_def] using
      (hperm.filter fun e => decide (e.1 = c)).map fun e => S.index.commitId e.2

example :
    (RevsetImpl.changeIdIndex ⟨.eager [4, 3, 1, 0], chainIndex⟩).shortestUniquePrefixLen [3] =
      2 := by
  decide
example : (RevsetImpl.changeIdIndex ⟨.eager [4, 3, 1, 0], chainIndex⟩).resolvePrefix ⟨[0, 3]⟩ =
    .singleMatch [[3]] := by
  decide
example : (RevsetImpl.changeIdIndex ⟨.eager [4, 3, 1, 0], chainIndex⟩).resolvePrefix ⟨[0]⟩ =
    .ambiguousMatch := by
  decide


/-- The change id `[3]` of member `3` in the chain fixture. -/
theorem resolvePrefix_shortestUniquePrefixLen_chain :
    (∃ x ∈ [4, 3, 1, 0], chainIndex.changeId x = [3]) ∧
    ((∀ m < (changeIdIndex ⟨.eager [4, 3, 1, 0], chainIndex⟩).shortestUniquePrefixLen [3],
      (changeIdIndex ⟨.eager [4, 3, 1, 0], chainIndex⟩).resolvePrefix
        ⟨(hexDigits [3]).take m⟩ = .ambiguousMatch) ∧
    ∀ m, (changeIdIndex ⟨.eager [4, 3, 1, 0], chainIndex⟩).shortestUniquePrefixLen [3] ≤ m →
      m ≤ 2 * [(3 : Fin 256)].length →
      ∃ vs, (changeIdIndex ⟨.eager [4, 3, 1, 0], chainIndex⟩).resolvePrefix
          ⟨(hexDigits [3]).take m⟩ = .singleMatch vs ∧
        vs.Perm (([4, 3, 1, 0].filter fun x => chainIndex.changeId x = [3]).map
          chainIndex.commitId)) :=
  ⟨⟨3, by decide, rfl⟩,
    resolvePrefix_shortestUniquePrefixLen ⟨.eager [4, 3, 1, 0], chainIndex⟩ [3] ⟨3, by decide, rfl⟩⟩

/-- A change-id index built from fewer members of the same index never needs longer
prefixes: the shortest unique prefix of every change id is no longer, and a prefix that is
unambiguous among more members stays unambiguous among fewer. -/
theorem changeIdIndex_shorter_of_subset (index : CompositeIndex) (inner inner' : InternalRevset)
    (hsub : ∀ x ∈ inner.iter index, x ∈ inner'.iter index) :
    (∀ c, (changeIdIndex ⟨inner, index⟩).shortestUniquePrefixLen c ≤
      (changeIdIndex ⟨inner', index⟩).shortestUniquePrefixLen c) ∧
    ∀ p, (changeIdIndex ⟨inner', index⟩).resolvePrefix p ≠ .ambiguousMatch →
      (changeIdIndex ⟨inner, index⟩).resolvePrefix p ≠ .ambiguousMatch := by
  have hsubset : (changeIdIndex ⟨inner, index⟩).posByChange.entries ⊆
      (changeIdIndex ⟨inner', index⟩).posByChange.entries := fun e he => by
    simp only [changeIdIndex, (IdIndex.fromVec_perm _).mem_iff] at he ⊢
    obtain ⟨x, hx, rfl⟩ := List.mem_map.mp he
    exact List.mem_map_of_mem _ (hsub x hx)
  exact ⟨IdIndex.shortestUniquePrefixLen_le_of_subset hsubset,
    fun _ => IdIndex.resolvePrefixWith_ne_ambiguous_of_subset hsubset⟩

/-- Members `3` and `1` against the whole chain. -/
theorem changeIdIndex_shorter_of_subset_chain :
    (∀ x ∈ (InternalRevset.eager [3, 1]).iter chainIndex,
      x ∈ (InternalRevset.eager [4, 3, 1, 0]).iter chainIndex) ∧
    (∀ c, (changeIdIndex ⟨.eager [3, 1], chainIndex⟩).shortestUniquePrefixLen c ≤
      (changeIdIndex ⟨.eager [4, 3, 1, 0], chainIndex⟩).shortestUniquePrefixLen c) ∧
    ∀ p, (changeIdIndex ⟨.eager [4, 3, 1, 0], chainIndex⟩).resolvePrefix p ≠
        .ambiguousMatch →
      (changeIdIndex ⟨.eager [3, 1], chainIndex⟩).resolvePrefix p ≠ .ambiguousMatch :=
  ⟨by decide, changeIdIndex_shorter_of_subset chainIndex _ _ (by decide)⟩

end RevsetImpl

end RevsetEngine
