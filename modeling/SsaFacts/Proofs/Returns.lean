import Mathlib
import SsaFacts.Notice

/-! What a computation can return, in whatever state it runs. A property of all results is carried
through a computation step by step, so that each step is asked for its own part only. -/
namespace SsaFacts

instance Checked.monadAttach {ε : Type} : MonadAttach (Except ε) where
  CanReturn x a := x = .ok a
  attach
    | .ok a => .ok ⟨a, rfl⟩
    | .error e => .error e

instance Checked.lawfulMonadAttach {ε : Type} : LawfulMonadAttach (Except ε) where
  map_attach {_ x} := by cases x <;> rfl
  canReturn_map_imp {_ _ x a} h := by
    cases x with
    | error e => cases h
    | ok b =>
      cases h
      exact b.2

namespace Checked
variable {α β : Type}

@[simp] theorem pure_eq (a : α) : (pure a : Checked α) = .ok a := rfl

@[simp] theorem ok_bind (a : α) (f : α → Checked β) : (.ok a >>= f) = f a := rfl

theorem bind_eq_ok {x : Checked α} {f : α → Checked β} {b : β} :
    (x >>= f) = .ok b ↔ ∃ a, x = .ok a ∧ f a = .ok b := by
  cases x with
  | error e => exact ⟨nofun, fun ⟨_, same, _⟩ => nomatch same⟩
  | ok a => simp

theorem eq_ok_of_some {x : Checked α} {a : α} (h : (do return some (← x)) = Except.ok (some a)) : x = .ok a := by
  obtain ⟨b, hx, ⟨⟩⟩ := bind_eq_ok.1 h
  exact hx

theorem filterAuxM_ok {f : α → Checked Bool} {q : α → Bool} {xs : List α}
    (h : ∀ x ∈ xs, f x = .ok (q x)) (acc : List α) :
    xs.filterAuxM f acc = .ok ((xs.filter q).reverse ++ acc) := by
  induction xs generalizing acc with
  | nil => rfl
  | cons x rest ih =>
    rw [List.filterAuxM, h x (by simp)]
    refine (ih (fun y hy => h y (by simp [hy])) _).trans ?_
    cases hq : q x <;> simp [hq]

theorem filterM_ok {f : α → Checked Bool} {q : α → Bool} {xs : List α}
    (h : ∀ x ∈ xs, f x = .ok (q x)) : xs.filterM f = .ok (xs.filter q) := by
  rw [List.filterM, filterAuxM_ok h]
  simp

theorem mem_of_filterAuxM {f : α → Checked Bool} {xs ys acc : List α} {x : α}
    (found : xs.filterAuxM f acc = .ok ys) : x ∈ ys ↔ x ∈ acc ∨ x ∈ xs ∧ f x = .ok true := by
  induction xs generalizing acc with
  | nil =>
    cases found
    simp
  | cons y rest ih =>
    obtain ⟨keep, hy, found⟩ := bind_eq_ok.1 found
    rw [ih found, List.mem_cons]
    cases keep <;> grind

theorem mem_of_filterM {f : α → Checked Bool} {xs ys : List α} {x : α} (found : xs.filterM f = .ok ys) :
    x ∈ ys ↔ x ∈ xs ∧ f x = .ok true := by
  obtain ⟨kept, filtered, ⟨⟩⟩ := bind_eq_ok.1 found
  rw [List.mem_reverse, mem_of_filterAuxM filtered]
  simp

theorem exists_of_filterM {f : α → Checked Bool} {xs ys : List α} (found : xs.filterM f = .ok ys) :
    ∀ x ∈ xs, ∃ b, f x = .ok b := by
  have tested {xs acc ys : List α} (found : xs.filterAuxM f acc = .ok ys) : ∀ x ∈ xs, ∃ b, f x = .ok b := by
    induction xs generalizing acc with
    | nil => simp
    | cons x rest ih =>
      obtain ⟨b, hb, found⟩ := bind_eq_ok.1 found
      exact List.forall_mem_cons.2 ⟨⟨b, hb⟩, ih found⟩
  obtain ⟨kept, filtered, -⟩ := bind_eq_ok.1 found
  exact tested filtered

theorem mapM_ok {f : α → Checked β} {g : α → β} {xs : List α} (h : ∀ x ∈ xs, f x = .ok (g x)) :
    xs.mapM f = .ok (xs.map g) := by
  induction xs with
  | nil => rfl
  | cons x rest ih =>
    rw [List.mapM_cons, h x (by simp), ok_bind, ih fun y hy => h y (by simp [hy])]
    rfl

theorem forM_ok {f : α → Checked Unit} {xs : List α} (h : ∀ x ∈ xs, f x = .ok ()) : xs.forM f = .ok () := by
  induction xs with
  | nil => rfl
  | cons x rest ih =>
    show (f x >>= fun _ => rest.forM f) = .ok ()
    rw [h x (by simp), ok_bind, ih fun y hy => h y (by simp [hy])]

end Checked

theorem forall₂_of_mapM_eq_ok {ε α β : Type} {f : α → Except ε β} {xs : List α} {ys : List β}
    (h : xs.mapM f = .ok ys) : List.Forall₂ (fun x y => f x = .ok y) xs ys := by
  induction xs generalizing ys with
  | nil =>
    cases h
    exact .nil
  | cons x rest ih =>
    rw [List.mapM_cons] at h
    cases hx : f x with
    | error e =>
      rw [hx] at h
      cases h
    | ok y =>
      cases hr : rest.mapM f with
      | error e =>
        rw [hx, hr] at h
        cases h
      | ok zs =>
        rw [hx, hr] at h
        cases h
        exact .cons hx (ih hr)

theorem exists_of_forall₂ {α β : Type} {R : α → β → Prop} {xs : List α} {ys : List β} (h : List.Forall₂ R xs ys)
    {i : Nat} {y : β} (hy : ys[i]? = some y) : ∃ x, xs[i]? = some x ∧ R x y := by
  obtain ⟨inside, rfl⟩ := List.getElem?_eq_some_iff.1 hy
  have bound : i < xs.length := h.length_eq ▸ inside
  exact ⟨xs[i], List.getElem?_eq_getElem bound, h.get bound inside⟩

theorem exists_mem_of_mapM_eq_error {ε α β : Type} {f : α → Except ε β} {xs : List α} {err : ε}
    (h : xs.mapM f = .error err) : ∃ x ∈ xs, f x = .error err := by
  induction xs with
  | nil => cases h
  | cons x rest ih =>
    rw [List.mapM_cons] at h
    cases hx : f x with
    | error e =>
      rw [hx] at h
      cases h
      exact ⟨x, by simp, hx⟩
    | ok y =>
      rw [hx] at h
      cases hr : rest.mapM f with
      | error e =>
        rw [hr] at h
        cases h
        obtain ⟨z, hz, failed⟩ := ih hr
        exact ⟨z, by simp [hz], failed⟩
      | ok ys =>
        rw [hr] at h
        cases h

/-- Every result of the computation has the property. -/
def Gives {m : Type → Type} [MonadAttach m] {α : Type} (x : m α) (P : α → Prop) : Prop :=
  ∀ a, MonadAttach.CanReturn x a → P a

namespace Gives
variable {m : Type → Type} [Monad m] [LawfulMonad m] [MonadAttach m] [LawfulMonadAttach m]
  {α β : Type} {P : α → Prop} {Q : β → Prop} {x : m α}

protected theorem pure {a : α} (h : P a) : Gives (pure a : m α) P := by
  intro b hb
  exact LawfulMonadAttach.eq_of_canReturn_pure hb ▸ h

protected theorem bind {f : α → m β} (hx : Gives x P) (hf : ∀ a, P a → Gives (f a) Q) :
    Gives (x >>= f) Q := by
  intro b hb
  obtain ⟨a, ha, hb⟩ := LawfulMonadAttach.canReturn_bind_imp' hb
  exact hf a (hx a ha) b hb

/-- The first step need not be known. -/
theorem after {f : α → m β} (hf : ∀ a, Gives (f a) Q) : Gives (x >>= f) Q :=
  Gives.bind (fun _ _ => trivial) fun a (_ : True) => hf a

/-- Nothing is returned. -/
theorem none : Gives (pure none : m (Option α)) fun o => ∀ a ∈ o, P a := .pure (by simp)

/-- What a computation gives is returned as an option. -/
theorem some (hx : Gives x P) : Gives (do return some (← x)) fun o => ∀ a ∈ o, P a :=
  hx.bind fun a ha => .pure (by simpa using ha)

protected theorem lift {n : Type → Type} [Monad n] [LawfulMonad n] [MonadAttach n]
    [LawfulMonadAttach n] [MonadLiftT m n] [LawfulMonadLiftT m n] (hx : Gives x P) :
    Gives (liftM x : n α) P :=
  fun a ha => hx a (LawfulMonadAttach.canReturn_liftM_imp' ha)

theorem mapM {f : α → m β} {xs : List α} (hf : ∀ a ∈ xs, Gives (f a) Q) :
    Gives (xs.mapM f) fun bs => ∀ b ∈ bs, Q b := by
  induction xs with
  | nil => exact .pure (by simp)
  | cons a rest ih =>
    rw [List.mapM_cons]
    refine (hf a (by simp)).bind fun b hb => ?_
    refine (ih fun a ha => hf a (by simp [ha])).bind fun bs hbs => .pure ?_
    simpa using ⟨hb, hbs⟩

theorem filterMapM {f : α → m (Option β)} {xs : List α}
    (hf : ∀ a ∈ xs, Gives (f a) fun o => ∀ b ∈ o, Q b) :
    Gives (xs.filterMapM f) fun bs => ∀ b ∈ bs, Q b := by
  induction xs with
  | nil => exact .pure (by simp)
  | cons a rest ih =>
    have tail := ih fun a ha => hf a (by simp [ha])
    rw [List.filterMapM_cons]
    refine (hf a (by simp)).bind fun o ho => ?_
    cases o with
    | none => exact tail
    | some b =>
      refine tail.bind fun bs hbs => .pure ?_
      simpa using ⟨ho b rfl, hbs⟩

theorem mem_filterMapM {R : α → β → Prop} {f : α → m (Option β)} {xs : List α}
    (hf : ∀ a ∈ xs, Gives (f a) fun o => ∀ b, b ∈ o ↔ R a b) :
    Gives (xs.filterMapM f) fun bs => ∀ b, b ∈ bs ↔ ∃ a ∈ xs, R a b := by
  induction xs with
  | nil => exact .pure (by simp)
  | cons a rest ih =>
    obtain ⟨first, others⟩ := List.forall_mem_cons.1 hf
    rw [List.filterMapM_cons]
    refine first.bind fun o ho => ?_
    simp only [List.exists_mem_cons_iff, ← ho]
    cases o with
    | none => simpa using ih others
    | some b => exact (ih others).bind fun bs hbs => .pure (by simp [hbs, eq_comm])

theorem mem_flatten_mapM {R : α → β → Prop} {f : α → m (List β)} {xs : List α}
    (hf : ∀ a ∈ xs, Gives (f a) fun bs => ∀ b, b ∈ bs ↔ R a b) :
    Gives (xs.mapM f) fun bss => ∀ b, b ∈ bss.flatten ↔ ∃ a ∈ xs, R a b := by
  induction xs with
  | nil => exact .pure (by simp)
  | cons a rest ih =>
    obtain ⟨first, others⟩ := List.forall_mem_cons.1 hf
    rw [List.mapM_cons]
    refine first.bind fun bs hbs => (ih others).bind fun bss hbss => .pure ?_
    simp only [List.flatten_cons, List.mem_append, hbs, hbss, List.exists_mem_cons_iff, implies_true]

end Gives

/-- A property that a computation has if its steps have it. -/
structure Stepwise (m : Type → Type) [Monad m] (P : ∀ {α : Type}, m α → Prop) : Prop where
  pure : ∀ {α : Type} (a : α), P (pure a)
  bind : ∀ {α β : Type} {x : m α} {f : α → m β}, P x → (∀ a, P (f a)) → P (x >>= f)

namespace Stepwise
variable {m : Type → Type} [Monad m] {P : ∀ {α : Type}, m α → Prop} {α β : Type} {xs : List α}

theorem map (steps : Stepwise m P) {x : m α} (hx : P x) (f : α → β) : P (do return f (← x)) :=
  steps.bind hx fun _ => steps.pure _

theorem discard [LawfulMonad m] (steps : Stepwise m P) {x : m α} (hx : P x) : P (discard x) := by
  rw [Functor.discard, LawfulFunctor.map_const, Function.comp_apply, map_eq_pure_bind]
  exact steps.map hx _

theorem forM (steps : Stepwise m P) {f : α → m PUnit} (hf : ∀ a ∈ xs, P (f a)) : P (xs.forM f) := by
  induction xs with
  | nil => exact steps.pure _
  | cons a rest ih =>
    obtain ⟨first, others⟩ := List.forall_mem_cons.1 hf
    exact steps.bind first fun _ => ih others

theorem mapM [LawfulMonad m] (steps : Stepwise m P) {f : α → m β} (hf : ∀ a ∈ xs, P (f a)) : P (xs.mapM f) := by
  induction xs with
  | nil => exact steps.pure _
  | cons a rest ih =>
    obtain ⟨first, others⟩ := List.forall_mem_cons.1 hf
    rw [List.mapM_cons]
    exact steps.bind first fun _ => steps.map (ih others) _

theorem filterMapM [LawfulMonad m] (steps : Stepwise m P) {f : α → m (Option β)} (hf : ∀ a ∈ xs, P (f a)) :
    P (xs.filterMapM f) := by
  induction xs with
  | nil => exact steps.pure _
  | cons a rest ih =>
    obtain ⟨first, others⟩ := List.forall_mem_cons.1 hf
    rw [List.filterMapM_cons]
    refine steps.bind first fun o => ?_
    cases o with
    | none => exact ih others
    | some b => exact steps.map (ih others) _

theorem findSomeM? [LawfulMonad m] (steps : Stepwise m P) {f : α → m (Option β)} (hf : ∀ a ∈ xs, P (f a)) :
    P (xs.findSomeM? f) := by
  induction xs with
  | nil => exact steps.pure _
  | cons a rest ih =>
    obtain ⟨first, others⟩ := List.forall_mem_cons.1 hf
    rw [List.findSomeM?_cons]
    refine steps.bind first fun o => ?_
    cases o with
    | none => exact ih others
    | some b => exact steps.pure _

theorem foldlM (steps : Stepwise m P) {f : β → α → m β} (hf : ∀ b, ∀ a ∈ xs, P (f b a)) (b : β) :
    P (xs.foldlM f b) := by
  induction xs generalizing b with
  | nil => exact steps.pure _
  | cons a rest ih =>
    rw [List.foldlM_cons]
    exact steps.bind (hf b a List.mem_cons_self) fun b => ih (fun b a mem => hf b a (.tail _ mem)) b

theorem anyM (steps : Stepwise m P) {f : α → m Bool} (hf : ∀ a ∈ xs, P (f a)) : P (xs.anyM f) := by
  induction xs with
  | nil => exact steps.pure _
  | cons a rest ih =>
    obtain ⟨first, others⟩ := List.forall_mem_cons.1 hf
    refine steps.bind first fun b => ?_
    cases b with
    | true => exact steps.pure _
    | false => exact ih others

theorem allM (steps : Stepwise m P) {f : α → m Bool} (hf : ∀ a ∈ xs, P (f a)) : P (xs.allM f) := by
  induction xs with
  | nil => exact steps.pure _
  | cons a rest ih =>
    obtain ⟨first, others⟩ := List.forall_mem_cons.1 hf
    refine steps.bind first fun b => ?_
    cases b with
    | false => exact steps.pure _
    | true => exact ih others

theorem filterM (steps : Stepwise m P) {f : α → m Bool} (hf : ∀ a ∈ xs, P (f a)) : P (xs.filterM f) := by
  have collected (acc : List α) : P (xs.filterAuxM f acc) := by
    induction xs generalizing acc with
    | nil => exact steps.pure _
    | cons a rest ih =>
      obtain ⟨first, others⟩ := List.forall_mem_cons.1 hf
      exact steps.bind first fun _ => ih others _
  exact steps.map (collected []) _

end Stepwise

section Runs
variable {ε σ α β : Type} {x : ExceptT ε (StateM σ) α} {f : α → ExceptT ε (StateM σ) β} {s s' : σ}

theorem run_bind_ok {a : α} (h : x s = (.ok a, s')) : (x >>= f) s = f a s' := by
  show ExceptT.bindCont f (x s).1 (x s).2 = _
  rw [h]
  rfl

theorem run_bind_error {e : ε} (h : x s = (.error e, s')) : (x >>= f) s = (.error e, s') := by
  show ExceptT.bindCont f (x s).1 (x s).2 = _
  rw [h]
  rfl

theorem run_bind_eq_ok {b : β} (h : (x >>= f) s = (.ok b, s')) :
    ∃ a t, x s = (.ok a, t) ∧ f a t = (.ok b, s') := by
  rcases hx : x s with ⟨e | a, t⟩
  · rw [run_bind_error hx] at h
    cases h
  · exact ⟨a, t, rfl, (run_bind_ok hx).symm.trans h⟩

theorem run_lift_ok {x : Except ε α} {a : α} (h : x = .ok a) :
    (liftM x : ExceptT ε (StateM σ) α) s = (.ok a, s) := by
  subst h
  rfl

theorem run_forM_ok {f : α → ExceptT ε (StateM σ) PUnit} {xs : List α}
    (h : ∀ a ∈ xs, f a s = (.ok ⟨⟩, s)) : xs.forM f s = (.ok ⟨⟩, s) := by
  induction xs with
  | nil => rfl
  | cons a rest ih => exact (run_bind_ok (h a (by simp))).trans (ih fun b hb => h b (by simp [hb]))

theorem run_tryCatch_ok {h : ε → ExceptT ε (StateM σ) α} {a : α} (hx : x s = (.ok a, s')) :
    tryCatch x h s = (.ok a, s') := by
  show (match (x s).1 with
    | .ok a => (pure (.ok a) : StateM σ (Except ε α))
    | .error e => h e) (x s).2 = _
  rw [hx]
  rfl

theorem run_tryCatch_error {h : ε → ExceptT ε (StateM σ) α} {e : ε} (hx : x s = (.error e, s')) :
    tryCatch x h s = h e s' := by
  show (match (x s).1 with
    | .ok a => (pure (.ok a) : StateM σ (Except ε α))
    | .error e => h e) (x s).2 = _
  rw [hx]

theorem run_mapM_const {f : α → ExceptT ε (StateM σ) β} {g : α → Except ε β}
    (h : ∀ a s, f a s = (g a, s)) (xs : List α) (s : σ) : xs.mapM f s = (xs.mapM g, s) := by
  induction xs with
  | nil => rfl
  | cons a rest ih =>
    rw [List.mapM_cons, List.mapM_cons]
    cases hg : g a with
    | error e => exact run_bind_error ((h a s).trans (by rw [hg]))
    | ok b =>
      rw [run_bind_ok ((h a s).trans (by rw [hg]))]
      cases hr : rest.mapM g with
      | error e => exact run_bind_error (ih.trans (by rw [hr]))
      | ok bs => exact run_bind_ok (ih.trans (by rw [hr]))

theorem exists_of_run_mapM {f : α → ExceptT ε (StateM σ) β} {xs : List α} {bs : List β} {a : α}
    (run : xs.mapM f s = (.ok bs, s')) (mem : a ∈ xs) :
    ∃ t t' b, f a t = (.ok b, t') ∧ b ∈ bs := by
  induction xs generalizing bs s with
  | nil => cases mem
  | cons x rest ih =>
    rw [List.mapM_cons] at run
    obtain ⟨b, t, first, run⟩ := run_bind_eq_ok run
    obtain ⟨tail, t', others, last⟩ := run_bind_eq_ok run
    cases last
    rcases List.mem_cons.1 mem with rfl | mem
    · exact ⟨s, t, b, first, List.mem_cons_self⟩
    · obtain ⟨u, u', c, step, hc⟩ := ih others mem
      exact ⟨u, u', c, step, List.mem_cons_of_mem b hc⟩

theorem run_mapM_of_ok {f : α → ExceptT ε (StateM σ) β} {xs : List α}
    (h : ∀ a ∈ xs, ∀ s, ∃ b s', f a s = (.ok b, s')) (s : σ) : ∃ bs s', xs.mapM f s = (.ok bs, s') := by
  induction xs generalizing s with
  | nil => exact ⟨[], s, rfl⟩
  | cons a rest ih =>
    obtain ⟨b, t, first⟩ := h a (by simp) s
    obtain ⟨bs, s', others⟩ := ih (fun a ha => h a (by simp [ha])) t
    refine ⟨b :: bs, s', ?_⟩
    rw [List.mapM_cons, run_bind_ok first, run_bind_ok others]
    rfl

end Runs

/-- The computation leads from any state to a related one, also where it fails. -/
def Keeps {ε σ α : Type} (R : σ → σ → Prop) (x : ExceptT ε (StateM σ) α) : Prop := ∀ s, R s (x s).2

theorem Keeps.run {ε σ α : Type} {R : σ → σ → Prop} {x : ExceptT ε (StateM σ) α} {s s' : σ}
    {o : Except ε α} (h : Keeps R x) (run : x s = (o, s')) : R s s' := by
  have related := h s
  rwa [run] at related

namespace Keeps
variable {ε σ α β : Type} {R : σ → σ → Prop} [IsPreorder σ R] {x : ExceptT ε (StateM σ) α}

theorem of_eq (h : ∀ s, (x s).2 = s) : Keeps R x := fun s => (h s).symm ▸ refl_of R s

protected theorem pure (a : α) : Keeps R (pure a : ExceptT ε (StateM σ) α) := of_eq fun _ => rfl

protected theorem throw (e : ε) : Keeps R (throw e : ExceptT ε (StateM σ) α) := of_eq fun _ => rfl

protected theorem bind {f : α → ExceptT ε (StateM σ) β} (hx : Keeps R x) (hf : ∀ a, Keeps R (f a)) :
    Keeps R (x >>= f) := by
  intro s
  have first := hx s
  rcases hs : x s with ⟨e | a, t⟩
  · rw [hs] at first
    rwa [run_bind_error hs]
  · rw [hs] at first
    rw [run_bind_ok hs]
    exact trans_of R first (hf a t)

protected theorem tryCatch {h : ε → ExceptT ε (StateM σ) α} (hx : Keeps R x) (hh : ∀ e, Keeps R (h e)) :
    Keeps R (tryCatch x h) := by
  intro s
  have first := hx s
  rcases run : x s with ⟨e | a, t⟩ <;> rw [run] at first
  · rw [run_tryCatch_error run]
    exact trans_of R first (hh e t)
  · rwa [run_tryCatch_ok run]

theorem stepwise : Stepwise (ExceptT ε (StateM σ)) (Keeps R) := ⟨Keeps.pure, Keeps.bind⟩

theorem forM {f : α → ExceptT ε (StateM σ) PUnit} {xs : List α} (hf : ∀ a ∈ xs, Keeps R (f a)) :
    Keeps R (xs.forM f) := stepwise.forM hf

end Keeps

/-- Wherever the computation fails, it fails as described. -/
def Fails {ε σ α : Type} (E : ε → Prop) (x : ExceptT ε (StateM σ) α) : Prop :=
  ∀ s e s', x s = (.error e, s') → E e

namespace Fails
variable {ε σ α β : Type} {E : ε → Prop} {x : ExceptT ε (StateM σ) α}

theorem of_ok (h : ∀ s, ∃ a t, x s = (.ok a, t)) : Fails E x := by
  intro s e s' run
  obtain ⟨a, t, ok⟩ := h s
  rw [ok] at run
  cases run

protected theorem pure (a : α) : Fails E (pure a : ExceptT ε (StateM σ) α) := by
  intro s e s' h
  cases h

protected theorem throw {e : ε} (h : E e) : Fails E (throw e : ExceptT ε (StateM σ) α) := by
  intro s e' s' h'
  cases h'
  exact h

protected theorem bind {f : α → ExceptT ε (StateM σ) β} (hx : Fails E x) (hf : ∀ a, Fails E (f a)) :
    Fails E (x >>= f) := by
  intro s e s' h
  rcases hs : x s with ⟨e' | a, t⟩
  · rw [run_bind_error hs] at h
    cases h
    exact hx s e s' hs
  · rw [run_bind_ok hs] at h
    exact hf a t e s' h

protected theorem tryCatch {h : ε → ExceptT ε (StateM σ) α} (hx : Fails E x) (hh : ∀ e, E e → Fails E (h e)) :
    Fails E (tryCatch x h) := by
  intro s e s' run
  rcases hs : x s with ⟨e' | a, t⟩
  · rw [run_tryCatch_error hs] at run
    exact hh e' (hx s e' t hs) t e s' run
  · rw [run_tryCatch_ok hs] at run
    cases run

theorem stepwise : Stepwise (ExceptT ε (StateM σ)) (Fails E) := ⟨Fails.pure, Fails.bind⟩

end Fails

theorem note_ok {n : Notice} (h : ∀ l ∈ n.literals, l.sized) (ns : List Notice) :
    note n ns = (.ok (), ns ++ [n]) := by
  refine (run_bind_ok (run_forM_ok fun l hl => ?_)).trans rfl
  have print : l.print = .ok l.text := if_pos (h l hl)
  rw [print]
  rfl

end SsaFacts
