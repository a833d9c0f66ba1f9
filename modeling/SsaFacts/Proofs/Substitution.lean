import SsaFacts.Clause

/-! Replacing the leaves of a term or a clause, one time after the other or not at all. -/
namespace SsaFacts

namespace Expr
variable {σ τ : Leaf → Expr} {e : Expr}

theorem subst_congr (same : ∀ l ∈ e.leaves, σ l = τ l) : e.subst σ = e.subst τ := by
  induction e with
  | literal k => rfl
  | leaf l => exact same l List.mem_cons_self
  | unary op e ih => rw [subst, subst, ih same]
  | binary op l r ihl ihr =>
    obtain ⟨left, right⟩ := List.forall_mem_append.1 same
    rw [subst, subst, ihl left, ihr right]

@[simp] theorem subst_leaf (e : Expr) : e.subst .leaf = e := by
  induction e with
  | literal k => rfl
  | leaf l => rfl
  | unary op e ih => rw [subst, ih]
  | binary op l r ihl ihr => rw [subst, ihl, ihr]

theorem subst_subst (σ τ : Leaf → Expr) (e : Expr) : (e.subst σ).subst τ = e.subst fun l => (σ l).subst τ := by
  induction e with
  | literal k => rfl
  | leaf l => rfl
  | unary op e ih => rw [subst, subst, subst, ih]
  | binary op l r ihl ihr => rw [subst, subst, subst, ihl, ihr]

theorem leaves_subst (σ : Leaf → Expr) (e : Expr) : (e.subst σ).leaves = e.leaves.flatMap fun l => (σ l).leaves := by
  induction e with
  | literal k => rfl
  | leaf l => simp [subst, leaves]
  | unary op e ih => exact ih
  | binary op l r ihl ihr => simp [subst, leaves, ihl, ihr]

end Expr

namespace Clause
variable {σ τ : Leaf → Expr} {c : Clause}

theorem exprs_subst (σ : Leaf → Expr) (c : Clause) : (c.subst σ).exprs = c.exprs.map (Expr.subst σ) := by
  induction c with
  | atom pred l r => rfl
  | not c ih => exact ih
  | and a b iha ihb | or a b iha ihb | xor a b iha ihb => simp [subst, exprs, iha, ihb]

theorem subst_congr (same : ∀ l ∈ c.leaves, σ l = τ l) : c.subst σ = c.subst τ := by
  induction c with
  | atom pred l r =>
    simp only [leaves, exprs, List.flatMap_cons, List.flatMap_nil, List.append_nil, List.forall_mem_append] at same
    rw [subst, subst, Expr.subst_congr same.1, Expr.subst_congr same.2]
  | not c ih => rw [subst, subst, ih same]
  | and a b iha ihb | or a b iha ihb | xor a b iha ihb =>
    simp only [leaves, exprs, List.flatMap_append, List.forall_mem_append] at same
    rw [subst, subst, iha same.1, ihb same.2]

@[simp] theorem subst_leaf (c : Clause) : c.subst .leaf = c := by
  induction c with
  | atom pred l r => rw [subst, Expr.subst_leaf, Expr.subst_leaf]
  | not c ih => rw [subst, ih]
  | and a b iha ihb | or a b iha ihb | xor a b iha ihb => rw [subst, iha, ihb]

theorem subst_subst (σ τ : Leaf → Expr) (c : Clause) : (c.subst σ).subst τ = c.subst fun l => (σ l).subst τ := by
  induction c with
  | atom pred l r => rw [subst, subst, subst, Expr.subst_subst, Expr.subst_subst]
  | not c ih => rw [subst, subst, subst, ih]
  | and a b iha ihb | or a b iha ihb | xor a b iha ihb => rw [subst, subst, subst, iha, ihb]

theorem leaves_subst (σ : Leaf → Expr) (c : Clause) : (c.subst σ).leaves = c.leaves.flatMap fun l => (σ l).leaves := by
  rw [leaves, exprs_subst, leaves, List.flatMap_map, List.flatMap_assoc]
  exact congrArg c.exprs.flatMap (funext fun e => e.leaves_subst σ)

theorem leaves_mapLeaves (f : Leaf → Leaf) (c : Clause) : (c.mapLeaves f).leaves = c.leaves.map f := by
  rw [mapLeaves, leaves_subst]
  exact (List.map_eq_flatMap).symm

theorem mapLeaves_eq_self {f : Leaf → Leaf} (same : ∀ l ∈ c.leaves, f l = l) : c.mapLeaves f = c :=
  (subst_congr fun l hl => congrArg Expr.leaf (same l hl)).trans c.subst_leaf

end Clause
end SsaFacts
