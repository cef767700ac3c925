import RevsetEngine.Safety

/-!
Identities of the set operators. A well-formed set yields its members in strictly
descending order, so two sets with the same members yield the same sequence; the laws of
union, intersection, difference and complement then hold of evaluation itself: an
expression and its rewriting yield the same entries in the same order, and one panics
exactly when the other does.
-/

namespace RevsetEngine

/-- Two strictly descending sequences with the same members are equal. -/
theorem eq_of_sorted_gt_of_mem_iff {l₁ l₂ : List Nat} (h₁ : l₁.Sorted (· > ·))
    (h₂ : l₂.Sorted (· > ·)) (h : ∀ x, x ∈ l₁ ↔ x ∈ l₂) : l₁ = l₂ :=
  List.eq_of_perm_of_sorted ((List.perm_ext_iff_of_nodup h₁.nodup h₂.nodup).mpr h) h₁ h₂

namespace EvaluationContext

variable (ctx : EvaluationContext)

open InternalRevset

/-- `e` evaluates to a set. -/
def Evaluates (e : RevsetExpression) : Prop :=
  ∃ S, ctx.evaluate e = pure S

/-- `e` evaluates to a set that yields `l`. -/
def Yields (e : RevsetExpression) (l : List Nat) : Prop :=
  ∃ S, ctx.evaluate e = pure S ∧ S.iter ctx.compositeIndex = l

/-- `e` evaluates to a set that yields `x`. -/
def Mem (e : RevsetExpression) (x : Nat) : Prop :=
  ∃ S, ctx.evaluate e = pure S ∧ x ∈ S.iter ctx.compositeIndex

/-- Two expressions are interchangeable: each yields a sequence exactly when the other
yields it. -/
def Equivalent (e₁ e₂ : RevsetExpression) : Prop :=
  ∀ l, ctx.Yields e₁ l ↔ ctx.Yields e₂ l

variable {ctx}

theorem evaluates_iff_exists_yields {e : RevsetExpression} :
    ctx.Evaluates e ↔ ∃ l, ctx.Yields e l :=
  ⟨fun ⟨S, hS⟩ => ⟨_, S, hS, rfl⟩, fun ⟨_, S, hS, _⟩ => ⟨S, hS⟩⟩

theorem mem_iff_exists_yields {e : RevsetExpression} {x : Nat} :
    ctx.Mem e x ↔ ∃ l, ctx.Yields e l ∧ x ∈ l :=
  ⟨fun ⟨S, hS, hx⟩ => ⟨_, ⟨S, hS, rfl⟩, hx⟩, fun ⟨_, ⟨S, hS, rfl⟩, hx⟩ => ⟨S, hS, hx⟩⟩

theorem Equivalent.evaluates_iff {e e' : RevsetExpression} (h : ctx.Equivalent e e') :
    ctx.Evaluates e ↔ ctx.Evaluates e' := by
  simp only [evaluates_iff_exists_yields, h _]

theorem Equivalent.mem_iff {e e' : RevsetExpression} (h : ctx.Equivalent e e') (x : Nat) :
    ctx.Mem e x ↔ ctx.Mem e' x := by
  simp only [mem_iff_exists_yields, h _]

theorem mem_of_evaluate {e : RevsetExpression} {S : InternalRevset}
    (h : ctx.evaluate e = pure S) {x : Nat} : ctx.Mem e x ↔ x ∈ S.iter ctx.compositeIndex :=
  ⟨fun ⟨S', h', hx⟩ => by rw [h, Eval.pure_inj] at h'; exact h' ▸ hx, fun hx => ⟨S, h, hx⟩⟩

/-! ### Branches that combine two operands -/

section Combine

variable {e e₁ e₂ : RevsetExpression} {F : InternalRevset → InternalRevset → InternalRevset}
  (he : ctx.evaluate e =
    ctx.evaluate e₁ >>= fun S₁ => ctx.evaluate e₂ >>= fun S₂ => pure (F S₁ S₂))
include he

theorem evaluates_of_eq_bind : ctx.Evaluates e ↔ ctx.Evaluates e₁ ∧ ctx.Evaluates e₂ := by
  simp only [Evaluates, he, Eval.bind_bind_pure_eq_pure]
  exact ⟨fun ⟨_, S₁, S₂, h₁, h₂, _⟩ => ⟨⟨S₁, h₁⟩, S₂, h₂⟩,
    fun ⟨⟨S₁, h₁⟩, S₂, h₂⟩ => ⟨_, S₁, S₂, h₁, h₂, rfl⟩⟩

/-- The members of a combined set, given how the combination yields. -/
theorem mem_of_eq_bind {P : Prop → Prop → Prop}
    (hF : ∀ {S₁ S₂}, ctx.evaluate e₁ = pure S₁ → ctx.evaluate e₂ = pure S₂ → ∀ x,
      x ∈ (F S₁ S₂).iter ctx.compositeIndex ↔
        P (x ∈ S₁.iter ctx.compositeIndex) (x ∈ S₂.iter ctx.compositeIndex))
    (x : Nat) :
    ctx.Mem e x ↔ (ctx.Evaluates e₁ ∧ ctx.Evaluates e₂) ∧ P (ctx.Mem e₁ x) (ctx.Mem e₂ x) := by
  constructor
  · rintro ⟨S, hS, hx⟩
    obtain ⟨S₁, S₂, h₁, h₂, rfl⟩ := Eval.bind_bind_pure_eq_pure.mp (he.symm.trans hS)
    rw [hF h₁ h₂, ← mem_of_evaluate h₁, ← mem_of_evaluate h₂] at hx
    exact ⟨⟨⟨S₁, h₁⟩, S₂, h₂⟩, hx⟩
  · rintro ⟨⟨⟨S₁, h₁⟩, S₂, h₂⟩, hx⟩
    rw [mem_of_evaluate h₁, mem_of_evaluate h₂, ← hF h₁ h₂] at hx
    exact ⟨_, he.trans (Eval.bind_bind_pure_eq_pure.mpr ⟨S₁, S₂, h₁, h₂, rfl⟩), hx⟩

end Combine

/-! ### Branches that read their operand only through its sequence -/

section Sequence

variable {e e' a a' : RevsetExpression} (G : List Nat → Eval InternalRevset)

theorem yields_of_eq_bind_iter
    (he : ctx.evaluate e = ctx.evaluate a >>= fun A => G (A.iter ctx.compositeIndex))
    (he' : ctx.evaluate e' = ctx.evaluate a' >>= fun A => G (A.iter ctx.compositeIndex))
    (h : ∀ l, ctx.Yields a l → ctx.Yields a' l) (l : List Nat) :
    ctx.Yields e l → ctx.Yields e' l := by
  simp only [Yields, he, he', Eval.bind_eq_pure]
  rintro ⟨S, ⟨A, hA, hG⟩, rfl⟩
  obtain ⟨A', hA', heq⟩ := h _ ⟨A, hA, rfl⟩
  exact ⟨S, ⟨A', hA', heq ▸ hG⟩, rfl⟩

/-- An operand read only through the sequence it yields can be replaced by an
interchangeable one. -/
theorem equivalent_of_eq_bind_iter
    (he : ctx.evaluate e = ctx.evaluate a >>= fun A => G (A.iter ctx.compositeIndex))
    (he' : ctx.evaluate e' = ctx.evaluate a' >>= fun A => G (A.iter ctx.compositeIndex))
    (h : ctx.Equivalent a a') : ctx.Equivalent e e' := fun l =>
  ⟨yields_of_eq_bind_iter G he he' (fun l => (h l).mp) l,
    yields_of_eq_bind_iter G he' he (fun l => (h l).mpr) l⟩

theorem yields_of_eq_bind₂ {b b' : RevsetExpression}
    (F : InternalRevset → InternalRevset → Eval InternalRevset)
    (he : ctx.evaluate e = ctx.evaluate a >>= fun A => ctx.evaluate b >>= fun B => F A B)
    (he' : ctx.evaluate e' = ctx.evaluate a' >>= fun A => ctx.evaluate b' >>= fun B => F A B)
    (hF : ∀ {A A' B B' S}, A.iter ctx.compositeIndex = A'.iter ctx.compositeIndex →
      B.iter ctx.compositeIndex = B'.iter ctx.compositeIndex → F A B = pure S →
      ∃ S', F A' B' = pure S' ∧ S'.iter ctx.compositeIndex = S.iter ctx.compositeIndex)
    (ha : ∀ l, ctx.Yields a l → ctx.Yields a' l) (hb : ∀ l, ctx.Yields b l → ctx.Yields b' l)
    (l : List Nat) : ctx.Yields e l → ctx.Yields e' l := by
  simp only [Yields, he, he', Eval.bind_eq_pure]
  rintro ⟨S, ⟨A, hA, B, hB, hS⟩, rfl⟩
  obtain ⟨A', hA', heqA⟩ := ha _ ⟨A, hA, rfl⟩
  obtain ⟨B', hB', heqB⟩ := hb _ ⟨B, hB, rfl⟩
  obtain ⟨S', hS', heq⟩ := hF heqA.symm heqB.symm hS
  exact ⟨S', ⟨A', hA', B', hB', hS'⟩, heq⟩

/-- Two operands whose sets are combined into sets that yield alike whenever the operands'
sets do can be replaced by interchangeable ones. -/
theorem equivalent_of_eq_bind₂ {b b' : RevsetExpression}
    (F : InternalRevset → InternalRevset → Eval InternalRevset)
    (he : ctx.evaluate e = ctx.evaluate a >>= fun A => ctx.evaluate b >>= fun B => F A B)
    (he' : ctx.evaluate e' = ctx.evaluate a' >>= fun A => ctx.evaluate b' >>= fun B => F A B)
    (hF : ∀ {A A' B B' S}, A.iter ctx.compositeIndex = A'.iter ctx.compositeIndex →
      B.iter ctx.compositeIndex = B'.iter ctx.compositeIndex → F A B = pure S →
      ∃ S', F A' B' = pure S' ∧ S'.iter ctx.compositeIndex = S.iter ctx.compositeIndex)
    (ha : ctx.Equivalent a a') (hb : ctx.Equivalent b b') : ctx.Equivalent e e' := fun l =>
  ⟨yields_of_eq_bind₂ F he he' hF (fun l => (ha l).mp) (fun l => (hb l).mp) l,
    yields_of_eq_bind₂ F he' he hF (fun l => (ha l).mpr) (fun l => (hb l).mpr) l⟩

theorem equivalent_of_eq_bind_iter₂ {b b' : RevsetExpression}
    (G₂ : List Nat → List Nat → Eval InternalRevset)
    (he : ctx.evaluate e = ctx.evaluate a >>= fun A => ctx.evaluate b >>= fun B =>
      G₂ (A.iter ctx.compositeIndex) (B.iter ctx.compositeIndex))
    (he' : ctx.evaluate e' = ctx.evaluate a' >>= fun A => ctx.evaluate b' >>= fun B =>
      G₂ (A.iter ctx.compositeIndex) (B.iter ctx.compositeIndex))
    (ha : ctx.Equivalent a a') (hb : ctx.Equivalent b b') : ctx.Equivalent e e' :=
  equivalent_of_eq_bind₂ _ he he' (fun hA hB hS => ⟨_, by rw [← hA, ← hB]; exact hS, rfl⟩) ha hb

end Sequence

/-! ### Which expressions evaluate, and to what members -/

section Members

variable {a b : RevsetExpression} {x : Nat}

theorem evaluates_none : ctx.Evaluates .none :=
  ⟨.eager [], by rw [evaluate]⟩

theorem mem_none : ctx.Mem .none x ↔ False :=
  iff_false_intro fun ⟨S, h, hx⟩ => by
    rw [evaluate, Eval.pure_inj] at h
    cases h
    exact List.not_mem_nil x hx

theorem evaluates_union : ctx.Evaluates (.union a b) ↔ ctx.Evaluates a ∧ ctx.Evaluates b :=
  evaluates_of_eq_bind (ctx.evaluate_union a b)

theorem evaluates_intersection :
    ctx.Evaluates (.intersection a b) ↔ ctx.Evaluates a ∧ ctx.Evaluates b :=
  evaluates_of_eq_bind (ctx.evaluate_intersection a b)

theorem evaluates_difference :
    ctx.Evaluates (.difference a b) ↔ ctx.Evaluates a ∧ ctx.Evaluates b :=
  evaluates_of_eq_bind (ctx.evaluate_difference a b)

theorem evaluates_notIn : ctx.Evaluates (.notIn a) ↔ ctx.Evaluates .all ∧ ctx.Evaluates a :=
  evaluates_of_eq_bind (ctx.evaluate_notIn a)

theorem mem_union :
    ctx.Mem (.union a b) x ↔ (ctx.Evaluates a ∧ ctx.Evaluates b) ∧ (ctx.Mem a x ∨ ctx.Mem b x) :=
  mem_of_eq_bind (ctx.evaluate_union a b) (fun _ _ _ => mem_iter_union _) x

variable (hw : ctx.compositeIndex.WalksDescending)
include hw

theorem mem_intersection :
    ctx.Mem (.intersection a b) x ↔
      (ctx.Evaluates a ∧ ctx.Evaluates b) ∧ (ctx.Mem a x ∧ ctx.Mem b x) :=
  mem_of_eq_bind (ctx.evaluate_intersection a b) (fun h₁ h₂ _ =>
    (ctx.evaluate_wellFormed hw _ h₁).mem_iter_filter _ (ctx.evaluate_wellFormed hw _ h₂)) x

theorem mem_difference :
    ctx.Mem (.difference a b) x ↔
      (ctx.Evaluates a ∧ ctx.Evaluates b) ∧ (ctx.Mem a x ∧ ¬ctx.Mem b x) :=
  @mem_of_eq_bind _ _ _ _ _ (ctx.evaluate_difference a b) (fun p q => p ∧ ¬q) (fun h₁ h₂ _ =>
    (ctx.evaluate_wellFormed hw _ h₁).mem_iter_difference _ (ctx.evaluate_wellFormed hw _ h₂)) x

theorem mem_notIn :
    ctx.Mem (.notIn a) x ↔
      (ctx.Evaluates .all ∧ ctx.Evaluates a) ∧ (ctx.Mem .all x ∧ ¬ctx.Mem a x) :=
  @mem_of_eq_bind _ _ _ _ _ (ctx.evaluate_notIn a) (fun p q => p ∧ ¬q) (fun h₁ h₂ _ =>
    (ctx.evaluate_wellFormed hw _ h₁).mem_iter_difference _ (ctx.evaluate_wellFormed hw _ h₂)) x

/-- Two expressions that evaluate together, and then to sets with the same members, are
interchangeable. -/
theorem equivalent_of_mem {e₁ e₂ : RevsetExpression}
    (hdef : ctx.Evaluates e₁ ↔ ctx.Evaluates e₂)
    (hmem : ctx.Evaluates e₁ → ∀ x, ctx.Mem e₁ x ↔ ctx.Mem e₂ x) : ctx.Equivalent e₁ e₂ := by
  intro l
  by_cases h : ctx.Evaluates e₁
  · obtain ⟨⟨S₁, h₁⟩, ⟨S₂, h₂⟩⟩ := And.intro h (hdef.mp h)
    have heq : S₁.iter ctx.compositeIndex = S₂.iter ctx.compositeIndex :=
      eq_of_sorted_gt_of_mem_iff ((ctx.evaluate_wellFormed hw e₁ h₁).sorted _)
        ((ctx.evaluate_wellFormed hw e₂ h₂).sorted _) fun x => by
          rw [← mem_of_evaluate h₁, ← mem_of_evaluate h₂]
          exact hmem h x
    simp only [Yields, h₁, h₂, Eval.pure_inj, exists_eq_left', heq]
  · exact iff_of_false (fun ⟨S, hS, _⟩ => h ⟨S, hS⟩)
      (fun ⟨S, hS, _⟩ => h (hdef.mpr ⟨S, hS⟩))

end Members

/-! ### The laws -/

variable (ctx)

/-- The laws of the set operators, as interchangeable expressions: union and intersection
are commutative, associative and idempotent, absorb each other and distribute over each
other, `none` is the unit of union and difference and absorbs intersection, an evaluated
set minus itself is `none`, subtracting a union subtracts each part, intersecting a
difference subtracts from the intersection, and complement within `All` turns a union
into an intersection. -/
structure SetLaws : Prop where
  union_comm : ∀ a b, ctx.Equivalent (.union a b) (.union b a)
  union_assoc : ∀ a b c, ctx.Equivalent (.union (.union a b) c) (.union a (.union b c))
  union_self : ∀ a, ctx.Equivalent (.union a a) a
  union_none : ∀ a, ctx.Equivalent (.union a .none) a
  intersection_comm : ∀ a b, ctx.Equivalent (.intersection a b) (.intersection b a)
  intersection_assoc : ∀ a b c,
    ctx.Equivalent (.intersection (.intersection a b) c) (.intersection a (.intersection b c))
  intersection_self : ∀ a, ctx.Equivalent (.intersection a a) a
  intersection_none : ∀ a, ctx.Evaluates a → ctx.Equivalent (.intersection a .none) .none
  intersection_union : ∀ a b c, ctx.Equivalent (.intersection a (.union b c))
    (.union (.intersection a b) (.intersection a c))
  union_intersection_self : ∀ a b, ctx.Evaluates b →
    ctx.Equivalent (.union a (.intersection a b)) a
  intersection_union_self : ∀ a b, ctx.Evaluates b →
    ctx.Equivalent (.intersection a (.union a b)) a
  union_intersection : ∀ a b c, ctx.Equivalent (.union a (.intersection b c))
    (.intersection (.union a b) (.union a c))
  difference_none : ∀ a, ctx.Equivalent (.difference a .none) a
  difference_self : ∀ a, ctx.Evaluates a → ctx.Equivalent (.difference a a) .none
  difference_union : ∀ a b c,
    ctx.Equivalent (.difference a (.union b c)) (.difference (.difference a b) c)
  intersection_difference : ∀ a b c,
    ctx.Equivalent (.intersection a (.difference b c)) (.difference (.intersection a b) c)
  notIn_union : ∀ a b, ctx.Equivalent (.notIn (.union a b)) (.intersection (.notIn a) (.notIn b))
  notIn_notIn : ∀ a, ctx.Equivalent (.notIn (.notIn a)) (.intersection .all a)

/-- Under the walker's contract the laws of the set operators hold of evaluation: by
`equivalent_of_mem` each law is an identity of propositional logic over the operands'
evaluation and membership. -/
theorem evaluate_setLaws (hw : ctx.compositeIndex.WalksDescending) : ctx.SetLaws := by
  have hev := @evaluates_none ctx
  constructor <;> intros <;> apply equivalent_of_mem hw <;>
    simp only [evaluates_union, evaluates_intersection, evaluates_difference, evaluates_notIn,
      mem_union, mem_intersection hw, mem_difference hw, mem_notIn hw, mem_none] at * <;>
    (try simp_all only [and_true, true_and, and_self, or_false, and_false, not_false_eq_true,
      and_assoc, or_assoc, or_self, and_or_left, not_or, and_not_self, or_comm, or_left_comm,
      and_comm, and_left_comm]) <;>
    tauto

/-! ### Replacing an operand -/

section Replace

variable {ctx} {a a' b b' : RevsetExpression}

theorem equivalent_refl (e : RevsetExpression) : ctx.Equivalent e e := fun _ => Iff.rfl

theorem equivalent_of_evaluate_eq {e e' e₀ e₀' : RevsetExpression}
    (h : ctx.evaluate e = ctx.evaluate e₀) (h' : ctx.evaluate e' = ctx.evaluate e₀')
    (h₀ : ctx.Equivalent e₀ e₀') : ctx.Equivalent e e' := fun l => by
  simp only [Yields, h, h']
  exact h₀ l

theorem Equivalent.range (ha : ctx.Equivalent a a') (hb : ctx.Equivalent b b')
    (generation : Range) : ctx.Equivalent (.range a b generation) (.range a' b' generation) :=
  equivalent_of_eq_bind_iter₂ (fun la lb =>
      let rootIds := la.map ctx.compositeIndex.commitId
      let headIds := lb.map ctx.compositeIndex.commitId
      if generation = generationRangeFull then
        pure (.revWalk (ctx.compositeIndex.walkRevs headIds rootIds))
      else
        pure (.revWalk (ctx.compositeIndex.filterByGeneration headIds rootIds generation)))
    (ctx.evaluate_range a b generation) (ctx.evaluate_range a' b' generation) ha hb

theorem Equivalent.ancestors (ha : ctx.Equivalent a a') (generation : Range) :
    ctx.Equivalent (.ancestors a generation) (.ancestors a' generation) :=
  equivalent_of_evaluate_eq (ctx.evaluate_ancestors a generation)
    (ctx.evaluate_ancestors a' generation) ((equivalent_refl .none).range ha generation)

theorem Equivalent.dagRange (ha : ctx.Equivalent a a') (hb : ctx.Equivalent b b') :
    ctx.Equivalent (.dagRange a b) (.dagRange a' b') :=
  equivalent_of_eq_bind_iter₂ (fun la lb => pure (.eager (dagRangeSweep ctx.compositeIndex la lb)))
    (ctx.evaluate_dagRange a b) (ctx.evaluate_dagRange a' b') ha (hb.ancestors _)

theorem Equivalent.children (ha : ctx.Equivalent a a') :
    ctx.Equivalent (.children a) (.children a') :=
  equivalent_of_eq_bind₂ (fun A C => pure (.children A C)) (ctx.evaluate_children a)
    (ctx.evaluate_children a') (fun hA hC hS => by
      rw [Eval.pure_inj] at hS
      subst hS
      exact ⟨_, rfl, by simp only [iter, hA, hC]⟩)
    ha (ha.dagRange (equivalent_refl _))

theorem Equivalent.roots (ha : ctx.Equivalent a a') : ctx.Equivalent (.roots a) (.roots a') :=
  equivalent_of_eq_bind_iter₂ (fun lc la => pure (.eager (la.filter fun candidate =>
      !(ctx.compositeIndex.parentPositions candidate).any (· ∈ lc))))
    (ctx.evaluate_roots a) (ctx.evaluate_roots a') (ha.dagRange ha) ha

theorem Equivalent.heads (ha : ctx.Equivalent a a') : ctx.Equivalent (.heads a) (.heads a') :=
  equivalent_of_eq_bind_iter (fun l => ExceptT.lift (ctx.revsetForCommitIds
      (ctx.compositeIndex.heads (l.map ctx.compositeIndex.commitId))))
    (ctx.evaluate_heads a) (ctx.evaluate_heads a') ha

theorem Equivalent.latest (ha : ctx.Equivalent a a') (count : Nat) :
    ctx.Equivalent (.latest a count) (.latest a' count) :=
  equivalent_of_eq_bind_iter (fun l => ExceptT.lift (ctx.takeLatestRevset (.eager l) count))
    (ctx.evaluate_latest a count) (ctx.evaluate_latest a' count) ha

theorem Equivalent.asFilter (ha : ctx.Equivalent a a') :
    ctx.Equivalent (.asFilter a) (.asFilter a') :=
  equivalent_of_evaluate_eq (by rw [evaluate]) (by rw [evaluate]) ha

/-- `Present` evaluates as its operand, which never errs. -/
theorem Equivalent.present (ha : ctx.Equivalent a a') :
    ctx.Equivalent (.present a) (.present a') :=
  equivalent_of_evaluate_eq (by rw [evaluate, Eval.tryCatch_of_noError (ctx.evaluate_noError a)])
    (by rw [evaluate, Eval.tryCatch_of_noError (ctx.evaluate_noError a')]) ha

variable (hw : ctx.compositeIndex.WalksDescending)
include hw

theorem Equivalent.notIn (ha : ctx.Equivalent a a') : ctx.Equivalent (.notIn a) (.notIn a') :=
  equivalent_of_mem hw (by rw [evaluates_notIn, evaluates_notIn, ha.evaluates_iff]) fun _ x => by
    rw [mem_notIn hw, mem_notIn hw, ha.evaluates_iff, ha.mem_iff]

theorem Equivalent.union (ha : ctx.Equivalent a a') (hb : ctx.Equivalent b b') :
    ctx.Equivalent (.union a b) (.union a' b') :=
  equivalent_of_mem hw
    (by rw [evaluates_union, evaluates_union, ha.evaluates_iff, hb.evaluates_iff]) fun _ x => by
      rw [mem_union, mem_union, ha.evaluates_iff, hb.evaluates_iff, ha.mem_iff, hb.mem_iff]

/-- `Intersection` probes its second operand rather than iterating it; a well-formed
set's probe accepts exactly what it yields. -/
theorem Equivalent.intersection (ha : ctx.Equivalent a a') (hb : ctx.Equivalent b b') :
    ctx.Equivalent (.intersection a b) (.intersection a' b') :=
  equivalent_of_mem hw (by rw [evaluates_intersection, evaluates_intersection, ha.evaluates_iff,
      hb.evaluates_iff]) fun _ x => by
    rw [mem_intersection hw, mem_intersection hw, ha.evaluates_iff, hb.evaluates_iff,
      ha.mem_iff, hb.mem_iff]

theorem Equivalent.difference (ha : ctx.Equivalent a a') (hb : ctx.Equivalent b b') :
    ctx.Equivalent (.difference a b) (.difference a' b') :=
  equivalent_of_mem hw (by rw [evaluates_difference, evaluates_difference, ha.evaluates_iff,
      hb.evaluates_iff]) fun _ x => by
    rw [mem_difference hw, mem_difference hw, ha.evaluates_iff, hb.evaluates_iff,
      ha.mem_iff, hb.mem_iff]

end Replace

/-- Replacing an operand of any operator by an interchangeable expression leaves the
operator's result interchangeable, so a law applied anywhere inside an expression keeps
the whole expression's result. -/
structure Congruence : Prop where
  children : ∀ a a', ctx.Equivalent a a' → ctx.Equivalent (.children a) (.children a')
  ancestors : ∀ a a' generation, ctx.Equivalent a a' →
    ctx.Equivalent (.ancestors a generation) (.ancestors a' generation)
  range : ∀ a a' b b' generation, ctx.Equivalent a a' → ctx.Equivalent b b' →
    ctx.Equivalent (.range a b generation) (.range a' b' generation)
  dagRange : ∀ a a' b b', ctx.Equivalent a a' → ctx.Equivalent b b' →
    ctx.Equivalent (.dagRange a b) (.dagRange a' b')
  heads : ∀ a a', ctx.Equivalent a a' → ctx.Equivalent (.heads a) (.heads a')
  roots : ∀ a a', ctx.Equivalent a a' → ctx.Equivalent (.roots a) (.roots a')
  latest : ∀ a a' count, ctx.Equivalent a a' →
    ctx.Equivalent (.latest a count) (.latest a' count)
  asFilter : ∀ a a', ctx.Equivalent a a' → ctx.Equivalent (.asFilter a) (.asFilter a')
  present : ∀ a a', ctx.Equivalent a a' → ctx.Equivalent (.present a) (.present a')
  notIn : ∀ a a', ctx.Equivalent a a' → ctx.Equivalent (.notIn a) (.notIn a')
  union : ∀ a a' b b', ctx.Equivalent a a' → ctx.Equivalent b b' →
    ctx.Equivalent (.union a b) (.union a' b')
  intersection : ∀ a a' b b', ctx.Equivalent a a' → ctx.Equivalent b b' →
    ctx.Equivalent (.intersection a b) (.intersection a' b')
  difference : ∀ a a' b b', ctx.Equivalent a a' → ctx.Equivalent b b' →
    ctx.Equivalent (.difference a b) (.difference a' b')

/-- Under the walker's contract `Equivalent` is a congruence for every operator. -/
theorem evaluate_congruence (hw : ctx.compositeIndex.WalksDescending) : ctx.Congruence where
  children _ _ ha := ha.children
  ancestors _ _ generation ha := ha.ancestors generation
  range _ _ _ _ generation ha hb := ha.range hb generation
  dagRange _ _ _ _ ha hb := ha.dagRange hb
  heads _ _ ha := ha.heads
  roots _ _ ha := ha.roots
  latest _ _ count ha := ha.latest count
  asFilter _ _ ha := ha.asFilter
  present _ _ ha := ha.present
  notIn _ _ ha := ha.notIn hw
  union _ _ _ _ ha hb := ha.union hw hb
  intersection _ _ _ _ ha hb := ha.intersection hw hb
  difference _ _ _ _ ha hb := ha.difference hw hb

theorem evaluate_congruence_chain :
    chainContext.compositeIndex.WalksDescending ∧ chainContext.Congruence :=
  ⟨chainIndex_walksDescending, evaluate_congruence chainContext chainIndex_walksDescending⟩

theorem evaluate_setLaws_chain :
    chainContext.compositeIndex.WalksDescending ∧ chainContext.SetLaws :=
  ⟨chainIndex_walksDescending, evaluate_setLaws chainContext chainIndex_walksDescending⟩

end EvaluationContext

end RevsetEngine
