import SsaFacts.Program.Build
import SsaFacts.Proofs.Returns

/-! What holds of every program that is built step by step: blocks and the functions that list them, and
instructions and the blocks that list them, name each other. -/
namespace SsaFacts

/-- Every block is listed by the function it belongs to, and by no other, and every instruction once by the
block it belongs to. -/
structure Program.Regular (p : Program) : Prop where
  listed : ∀ (f : FuncId) (fn : Function), p.functions[f]? = some fn → ∀ b ∈ fn.blocks,
    ∃ x : Block, p.blocks[b]? = some x ∧ x.func = f
  housed : ∀ (b : BlockId) (x : Block), p.blocks[b]? = some x →
    ∃ fn : Function, p.functions[x.func]? = some fn ∧ b ∈ fn.blocks
  placed : ∀ (b : BlockId) (x : Block), p.blocks[b]? = some x → ∀ i ∈ x.insts,
    ∃ (v : Value) (op : Op), p.values[i]? = some v ∧ v.kind = .inst b op
  distinct : ∀ (b : BlockId) (x : Block), p.blocks[b]? = some x → x.insts.Nodup

namespace Program
variable {p : Program} {f : FuncId} {b : BlockId}

theorem value_eq_ok {v : ValueId} {x : Value} : p.value v = .ok x ↔ p.values[v]? = some x := by
  rw [value]
  cases p.values[v]? <;> simp

theorem block_eq_ok {b : BlockId} {x : Block} : p.block b = .ok x ↔ p.blocks[b]? = some x := by
  rw [block]
  cases p.blocks[b]? <;> simp

theorem function_eq_ok {f : FuncId} {x : Function} : p.function f = .ok x ↔ p.functions[f]? = some x := by
  rw [function]
  cases p.functions[f]? <;> simp

theorem mem_blocksOf : b ∈ p.blocksOf f ↔ ∃ fn : Function, p.functions[f]? = some fn ∧ b ∈ fn.blocks := by
  rw [blocksOf]
  cases p.functions[f]? <;> simp

theorem mem_instsOf {i : ValueId} : i ∈ p.instsOf b ↔ ∃ x : Block, p.blocks[b]? = some x ∧ i ∈ x.insts := by
  rw [instsOf]
  cases p.blocks[b]? <;> simp

theorem instsOf_eq {x : Block} (hx : p.blocks[b]? = some x) : p.instsOf b = x.insts := by
  rw [instsOf, hx]

theorem mem_bodyOf {i : ValueId} : i ∈ p.bodyOf f ↔ ∃ b ∈ p.blocksOf f, i ∈ p.instsOf b := List.mem_flatMap

theorem mem_instructions {i : ValueId} : i ∈ p.instructions ↔ ∃ f, i ∈ p.bodyOf f := by
  simp only [instructions, List.mem_flatMap, functionIds, List.mem_range]
  constructor
  · exact fun ⟨f, _, mem⟩ => ⟨f, mem⟩
  · rintro ⟨f, mem⟩
    obtain ⟨b, hb, -⟩ := mem_bodyOf.1 mem
    obtain ⟨fn, hf, -⟩ := mem_blocksOf.1 hb
    exact ⟨f, (Array.getElem?_eq_some_iff.1 hf).1, mem⟩

theorem kind_eq (v : ValueId) :
    p.kind v = match p.kind? v with
      | some k => .ok k
      | none => .error (.unknownValue v) := by
  rw [kind, kind?, value]
  cases p.values[v]? <;> rfl

theorem kind_eq_ok {v : ValueId} {k : Kind} : p.kind v = .ok k ↔ p.kind? v = some k := by
  rw [kind_eq]
  cases p.kind? v <;> simp

theorem lt_of_kind? {v : ValueId} {k : Kind} (found : p.kind? v = some k) : v < p.values.size := by
  obtain ⟨x, hx, -⟩ := Option.map_eq_some_iff.1 found
  exact (Array.getElem?_eq_some_iff.1 hx).1

theorem kind?_block? {i : ValueId} : (p.kind? i).bind Kind.block? = some b ↔
    ∃ (v : Value) (op : Op), p.values[i]? = some v ∧ v.kind = .inst b op := by
  rw [kind?]
  cases p.values[i]? with
  | none => simp
  | some v => cases kind : v.kind <;> simp [kind, Kind.block?]

theorem regular_iff : p.Regular ↔
    (∀ f < p.functions.size, ∀ b ∈ p.blocksOf f, p.blocks[b]?.map (·.func) = some f) ∧
    (∀ b < p.blocks.size, ∀ x ∈ p.blocks[b]?, b ∈ p.blocksOf x.func) ∧
    (∀ b < p.blocks.size, ∀ i ∈ p.instsOf b, (p.kind? i).bind Kind.block? = some b) ∧
    ∀ b < p.blocks.size, (p.instsOf b).Nodup := by
  simp only [kind?_block?, mem_blocksOf, Option.map_eq_some_iff, mem_instsOf]
  constructor
  · rintro ⟨listed, housed, placed, distinct⟩
    refine ⟨fun f _ b ⟨fn, hf, mem⟩ => listed f fn hf b mem, fun b _ x hx => housed b x hx,
      fun b _ i ⟨x, hx, mem⟩ => placed b x hx i mem, fun b inside => ?_⟩
    have hx := Array.getElem?_eq_getElem inside
    exact instsOf_eq hx ▸ distinct b _ hx
  · rintro ⟨listed, housed, placed, distinct⟩
    have inside {b : BlockId} {x : Block} (hx : p.blocks[b]? = some x) := (Array.getElem?_eq_some_iff.1 hx).1
    exact ⟨fun f fn hf b mem => listed f (Array.getElem?_eq_some_iff.1 hf).1 b ⟨fn, hf, mem⟩,
      fun b x hx => housed b (inside hx) x hx, fun b x hx i mem => placed b (inside hx) i ⟨x, hx, mem⟩,
      fun b x hx => instsOf_eq hx ▸ distinct b (inside hx)⟩

instance : Decidable p.Regular := decidable_of_iff _ regular_iff.symm

end Program

namespace Program.Regular
variable {p : Program} {b : BlockId} {v : ValueId}

theorem empty : Regular {} := ⟨by simp, by simp, by simp, by simp⟩

theorem addValue (h : p.Regular) (x : Value) : Regular { p with values := p.values.push x } where
  listed := h.listed
  housed := h.housed
  placed b y hy i hi := by
    obtain ⟨v, op, hv, kind⟩ := h.placed b y hy i hi
    have inside := (Array.getElem?_eq_some_iff.1 hv).1
    exact ⟨v, op, by rw [Array.getElem?_push, if_neg inside.ne, hv], kind⟩
  distinct := h.distinct

theorem setValue (h : p.Regular) {x y : Value} (hx : p.values[v]? = some x)
    (kept : ∀ b op, x.kind = .inst b op → ∃ op', y.kind = .inst b op') :
    Regular { p with values := p.values.setIfInBounds v y } where
  listed := h.listed
  housed := h.housed
  placed b z hz i hi := by
    obtain ⟨w, op, hw, kind⟩ := h.placed b z hz i hi
    by_cases same : v = i
    · subst same
      cases hx.symm.trans hw
      obtain ⟨op', kind'⟩ := kept b op kind
      have inside := (Array.getElem?_eq_some_iff.1 hx).1
      exact ⟨y, op', by simp [inside], kind'⟩
    · exact ⟨w, op, by rw [Array.getElem?_setIfInBounds_ne same, hw], kind⟩
  distinct := h.distinct

theorem addFunction (h : p.Regular) {fn : Function} (declared : fn.blocks = []) :
    Regular { p with functions := p.functions.push fn } where
  listed f fn' hf b hb := by
    rw [Array.getElem?_push] at hf
    split at hf
    · cases hf
      simp [declared] at hb
    · exact h.listed f fn' hf b hb
  housed b x hx := by
    obtain ⟨fn', hf, mem⟩ := h.housed b x hx
    have inside := (Array.getElem?_eq_some_iff.1 hf).1
    exact ⟨fn', by rw [Array.getElem?_push, if_neg inside.ne, hf], mem⟩
  placed := h.placed
  distinct := h.distinct

theorem addBlock (h : p.Regular) {func : FuncId} {fn : Function} (hfn : p.functions[func]? = some fn)
    (name : String) :
    Regular { p with
      blocks := p.blocks.push { func, name }
      functions := p.functions.setIfInBounds func { fn with blocks := fn.blocks ++ [p.blocks.size] } } := by
  have inside := (Array.getElem?_eq_some_iff.1 hfn).1
  have old {b : BlockId} {x : Block} (hx : p.blocks[b]? = some x) :
      (p.blocks.push { func, name })[b]? = some x := by
    rw [Array.getElem?_push, if_neg (Array.getElem?_eq_some_iff.1 hx).1.ne, hx]
  have cases {b : BlockId} {x : Block} (hx : (p.blocks.push { func, name })[b]? = some x) :
      b = p.blocks.size ∧ x = { func, name } ∨ p.blocks[b]? = some x := by
    rw [Array.getElem?_push] at hx
    split at hx
    case isTrue last => exact .inl ⟨last, (Option.some.inj hx).symm⟩
    case isFalse => exact .inr hx
  constructor
  · intro f fn' hf b hb
    by_cases same : func = f
    · subst same
      have here : { fn with blocks := fn.blocks ++ [p.blocks.size] } = fn' := by simpa [inside] using hf
      subst here
      rcases List.mem_append.1 hb with hb | hb
      · obtain ⟨x, hx, own⟩ := h.listed func fn hfn b hb
        exact ⟨x, old hx, own⟩
      · obtain rfl := List.mem_singleton.1 hb
        exact ⟨{ func, name }, by simp, rfl⟩
    · rw [Array.getElem?_setIfInBounds_ne same] at hf
      obtain ⟨x, hx, own⟩ := h.listed f fn' hf b hb
      exact ⟨x, old hx, own⟩
  · intro b x hx
    rcases cases hx with ⟨rfl, rfl⟩ | hx
    · exact ⟨{ fn with blocks := fn.blocks ++ [p.blocks.size] }, by simp [inside], by simp⟩
    · obtain ⟨fn', hf, mem⟩ := h.housed b x hx
      by_cases same : func = x.func
      · subst same
        cases hfn.symm.trans hf
        exact ⟨{ fn with blocks := fn.blocks ++ [p.blocks.size] }, by simp [inside],
          List.mem_append_left _ mem⟩
      · exact ⟨fn', by rw [Array.getElem?_setIfInBounds_ne same, hf], mem⟩
  · intro b x hx
    rcases cases hx with ⟨rfl, rfl⟩ | hx
    · simp
    · exact h.placed b x hx
  · intro b x hx
    rcases cases hx with ⟨rfl, rfl⟩ | hx
    · simp
    · exact h.distinct b x hx

/-- A block may change as long as it stays in its function and lists its own instructions. -/
theorem setBlock (h : p.Regular) {x y : Block} (hx : p.blocks[b]? = some x) (func : y.func = x.func)
    (placed : ∀ i ∈ y.insts, ∃ (v : Value) (op : Op), p.values[i]? = some v ∧ v.kind = .inst b op)
    (distinct : y.insts.Nodup) : Regular { p with blocks := p.blocks.setIfInBounds b y } := by
  have inside := (Array.getElem?_eq_some_iff.1 hx).1
  have cases {c : BlockId} {z : Block} (hz : (p.blocks.setIfInBounds b y)[c]? = some z) :
      c = b ∧ z = y ∨ p.blocks[c]? = some z := by
    by_cases same : b = c
    · subst same
      exact .inl ⟨rfl, by simpa [inside, eq_comm] using hz⟩
    · rw [Array.getElem?_setIfInBounds_ne same] at hz
      exact .inr hz
  constructor
  · intro f fn hf c hc
    obtain ⟨z, hz, own⟩ := h.listed f fn hf c hc
    by_cases same : b = c
    · subst same
      cases hx.symm.trans hz
      exact ⟨y, by simp [inside], func.trans own⟩
    · exact ⟨z, by rw [Array.getElem?_setIfInBounds_ne same, hz], own⟩
  · intro c z hz
    rcases cases hz with ⟨rfl, rfl⟩ | hz
    · rw [func]
      exact h.housed c x hx
    · exact h.housed c z hz
  · intro c z hz
    rcases cases hz with ⟨rfl, rfl⟩ | hz
    · exact placed
    · exact h.placed c z hz
  · intro c z hz
    rcases cases hz with ⟨rfl, rfl⟩ | hz
    · exact distinct
    · exact h.distinct c z hz

theorem append (h : p.Regular) {x : Block} (hx : p.blocks[b]? = some x) (ty : Ty) (op : Op) :
    Regular { p with
      values := p.values.push { ty, kind := .inst b op }
      blocks := p.blocks.setIfInBounds b { x with insts := x.insts ++ [p.values.size] } } := by
  refine (h.addValue { ty, kind := .inst b op }).setBlock hx rfl (fun i hi => ?_) ?_
  · rcases List.mem_append.1 hi with hi | hi
    · exact (h.addValue { ty, kind := .inst b op }).placed b x hx i hi
    · obtain rfl := List.mem_singleton.1 hi
      exact ⟨_, op, Array.getElem?_push_size, rfl⟩
  · refine List.nodup_append.2 ⟨h.distinct b x hx, List.nodup_singleton _, fun i hi j hj => ?_⟩
    obtain rfl := List.mem_singleton.1 hj
    obtain ⟨v, op, hv, -⟩ := h.placed b x hx i hi
    exact (Array.getElem?_eq_some_iff.1 hv).1.ne

end Program.Regular

namespace Build
variable {α β : Type} {p : Program}

def Leads (p : Program) (m : Build α) : Prop := ∀ a q, m p = .ok (a, q) → q.Regular

def Keeps (m : Build α) : Prop := ∀ p, p.Regular → Leads p m

namespace Leads

protected theorem pure (h : p.Regular) (a : α) : Leads p (pure a) := by
  rintro a q ⟨⟩
  exact h

protected theorem read {f : Program → Build α} (h : Leads p (f p)) : Leads p (program >>= f) := h

protected theorem lift {x : Checked α} {f : α → Build β} (hf : ∀ a, x = .ok a → Leads p (f a)) :
    Leads p (liftM x >>= f) := by
  intro b q run
  cases found : x with
  | error e =>
    rw [found] at run
    cases run
  | ok a =>
    rw [found] at run
    exact hf a found b q run

protected theorem set {q : Program} (h : q.Regular) (a : α) : Leads p (do set q; return a) := by
  rintro a q ⟨⟩
  exact h

end Leads

namespace Keeps

protected theorem bind {m : Build α} {f : α → Build β} (hm : Keeps m) (hf : ∀ a, Keeps (f a)) :
    Keeps (m >>= f) := by
  intro p h b q run
  change (m p >>= fun r => f r.1 r.2) = .ok (b, q) at run
  cases first : m p with
  | error e =>
    rw [first] at run
    cases run
  | ok r =>
    rw [first] at run
    exact hf r.1 r.2 (hm p h r.1 r.2 first) b q run

theorem stepwise : Stepwise Build Keeps := ⟨fun a _ h => .pure h a, Keeps.bind⟩

end Keeps

theorem keeps_addValue (ty : Ty) (kind : Kind) (name : Option String) : Keeps (addValue ty kind name) :=
  fun p h => Leads.read (.set (h.addValue { ty, kind, name }) p.values.size)

theorem keeps_function (name : String) (params : List Ty) (ret : Ty) : Keeps (function name params ret) := by
  intro p h
  have declare : Keeps (do
      let params ← params.zipIdx.mapM fun x => addValue x.1 (.param p.functions.size x.2)
      modify fun p => { p with functions := p.functions.push { name, params, ret } }
      return p.functions.size) := by
    refine (Keeps.stepwise.mapM fun _ _ => keeps_addValue _ _ none).bind fun params q hq => ?_
    rintro a q ⟨⟩
    exact hq.addFunction rfl
  exact Leads.read (declare p h)

theorem keeps_block (func : FuncId) (name : String) : Keeps (block func name) := by
  intro p h
  refine Leads.read (.lift fun fn found => ?_)
  exact .set (h.addBlock (Program.function_eq_ok.1 found) name) p.blocks.size

theorem keeps_setEntry (f : FuncId) : Keeps (setEntry f) := by
  rintro p h a q ⟨⟩
  exact ⟨h.listed, h.housed, h.placed, h.distinct⟩

theorem keeps_const (ty : Ty) (value : Int) : Keeps (const ty value) := by
  refine fun p h => Leads.read ?_
  split
  · exact .pure h _
  · exact keeps_addValue ty _ none p h

theorem keeps_null : Keeps null := by
  refine fun p h => Leads.read ?_
  split
  · exact .pure h _
  · exact keeps_addValue .ptr _ none p h

theorem keeps_append (b : BlockId) (ty : Ty) (op : Op) : Keeps (append b ty op) := by
  intro p h
  refine Leads.read (.lift fun x found => ?_)
  rintro a q ⟨⟩
  exact h.append (Program.block_eq_ok.1 found) ty op

theorem keeps_binary (b : BlockId) (op : BinOp) (l r : ValueId) : Keeps (binary b op l r) :=
  fun p h => Leads.read (.lift fun ty _ => keeps_append b ty _ p h)

theorem keeps_phiIncoming (v : ValueId) (source : BlockId) (value : ValueId) :
    Keeps (phiIncoming v source value) := by
  intro p h
  refine Leads.read (.lift fun x found => ?_)
  split
  case h_1 b incoming kind =>
    rintro a q ⟨⟩
    refine h.setValue (Program.value_eq_ok.1 found) fun c op same => ?_
    cases kind.symm.trans same
    exact ⟨_, rfl⟩
  case h_2 => exact .pure h _

theorem keeps_terminate (b : BlockId) (term : Terminator) : Keeps (terminate b term) := by
  intro p h
  refine Leads.read (.lift fun x found => ?_)
  rintro a q ⟨⟩
  have hx := Program.block_eq_ok.1 found
  exact h.setBlock hx rfl (h.placed b x hx) (h.distinct b x hx)

theorem keeps_setName (v : ValueId) (name : String) : Keeps (setName v name) := by
  intro p h
  refine Leads.read (.lift fun x found => ?_)
  rintro a q ⟨⟩
  exact h.setValue (Program.value_eq_ok.1 found) fun b op kind => ⟨op, kind⟩

inductive Made : {α : Type} → Build α → Prop
  | pure {α : Type} (a : α) : Made (pure a)
  | bind {α β : Type} {m : Build α} {f : α → Build β} (first : Made m) (rest : ∀ a, Made (f a)) : Made (m >>= f)
  | addValue (ty : Ty) (kind : Kind) (name : Option String) : Made (addValue ty kind name)
  | function (name : String) (params : List Ty) (ret : Ty) : Made (function name params ret)
  | block (func : FuncId) (name : String) : Made (block func name)
  | setEntry (f : FuncId) : Made (setEntry f)
  | const (ty : Ty) (value : Int) : Made (const ty value)
  | null : Made null
  | append (b : BlockId) (ty : Ty) (op : Op) : Made (append b ty op)
  | binary (b : BlockId) (op : BinOp) (l r : ValueId) : Made (binary b op l r)
  | phiIncoming (v : ValueId) (source : BlockId) (value : ValueId) : Made (phiIncoming v source value)
  | terminate (b : BlockId) (term : Terminator) : Made (terminate b term)
  | setName (v : ValueId) (name : String) : Made (setName v name)

theorem Made.keeps {m : Build α} (made : Made m) : Keeps m := by
  induction made with
  | pure a => exact fun p h => .pure h a
  | bind _ _ first rest => exact first.bind rest
  | addValue ty kind name => exact keeps_addValue ty kind name
  | function name params ret => exact keeps_function name params ret
  | block func name => exact keeps_block func name
  | setEntry f => exact keeps_setEntry f
  | const ty value => exact keeps_const ty value
  | null => exact keeps_null
  | append b ty op => exact keeps_append b ty op
  | binary b op l r => exact keeps_binary b op l r
  | phiIncoming v source value => exact keeps_phiIncoming v source value
  | terminate b term => exact keeps_terminate b term
  | setName v name => exact keeps_setName v name

theorem Made.regular {m : Build α} (made : Made m) {a : α} (run : Build.run m = .ok (a, p)) : p.Regular :=
  made.keeps {} .empty a p run

end Build
end SsaFacts
