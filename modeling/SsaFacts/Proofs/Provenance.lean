import SsaFacts.Proofs.Linking

/-! Where pointers point. An environment gives every pointer the object that it points into and a byte of that
object, as its definition asks. What is said about two pointers is true in every environment. -/
namespace SsaFacts

/-- The pointer that an address computation or a bit cast starts from, and the steps that it takes from there. -/
def Kind.origin? : Kind → Option (ValueId × List GepStep)
  | inst _ (.gep base steps) => some (base, steps)
  | inst _ (.cast .bitCast x) => some (x, [])
  | _ => none

/-- What a pointer is based on that is computed from no other. -/
def Kind.base (v : ValueId) : Kind → Base
  | inst _ (.alloca _) | global .. => .object v
  | inst .. | param .. => .unknown v
  | const _ | null | function _ => .noData

def Base.root? : Base → Option ValueId
  | object v | unknown v => some v
  | noData => none

theorem Kind.eq_of_root?_base {k : Kind} {v r : ValueId} (named : (k.base v).root? = some r) : v = r := by
  revert named
  unfold Kind.base
  split <;> simp [Base.root?]

def Program.origin? (p : Program) (v : ValueId) : Option (ValueId × List GepStep) := (p.kind? v).bind Kind.origin?

theorem Program.origin?_eq_some {p : Program} {v u : ValueId} {k : Kind} {steps : List GepStep}
    (kind : p.kind? v = some k) (origin : k.origin? = some (u, steps)) : p.origin? v = some (u, steps) := by
  rw [origin?, kind, Option.bind_some, origin]

namespace GepStep
variable {w : Nat} (index : ValueId → BitVec w)

/-- The bytes that a step adds, at `w` bits, where the indices have these values. -/
def extent : GepStep → BitVec w
  | .field offset => .ofNat w offset
  | .index size i => index i * .ofNat w size

def span (steps : List GepStep) : BitVec w := (steps.map (extent index)).sum

@[simp] theorem span_nil : span index [] = 0 := rfl

@[simp] theorem span_cons (step : GepStep) (rest : List GepStep) :
    span index (step :: rest) = step.extent index + span index rest := by
  simp [span]

end GepStep

theorem ofInt_signedSize {w : Nat} (le : w ≤ 64) (n : Nat) : BitVec.ofInt w (signedSize n) = BitVec.ofNat w n := by
  have dvd : twoPow w ∣ twoPow 64 := Nat.pow_dvd_pow 2 le
  apply BitVec.eq_of_toInt_eq
  rw [BitVec.toInt_ofInt, BitVec.toInt_ofNat', signedSize]
  exact Int.bmod_bmod_of_dvd dvd

theorem eq_of_requireInt64 {n m : Int} (found : requireInt64 n = .ok m) : n = m := by
  unfold requireInt64 at found
  split at found <;> cases found
  rfl

namespace Location
variable {p : Program} {v : ValueId} {n w : Nat} {o o' : Option Int} {d : Int} {l : Location} {step : GepStep}
  {steps rest : List GepStep} {index : ValueId → BitVec w}

/-! ### The way from a pointer to its base -/

theorem follow_succ (found : follow p (n + 1) v o = .ok l) : ∃ k, p.kind? v = some k ∧
    ((∃ u steps o', k.origin? = some (u, steps) ∧ advance p o steps = .ok o' ∧ follow p n u o' = .ok l) ∨
      k.origin? = none ∧ l = ⟨k.base v, o⟩) := by
  obtain ⟨k, kind, found⟩ := Checked.bind_eq_ok.1 found
  refine ⟨k, Program.kind_eq_ok.1 kind, ?_⟩
  split at found
  case h_1 b base path =>
    obtain ⟨o', advanced, found⟩ := Checked.bind_eq_ok.1 found
    exact .inl ⟨base, path, o', rfl, advanced, found⟩
  case h_2 b x => exact .inl ⟨x, [], o, rfl, rfl, found⟩
  case h_5 b op notGep notCast notAlloca =>
    cases found
    have ends : (Kind.inst b op).origin? = none := by
      unfold Kind.origin?
      split <;> simp_all
    have unknown : (Kind.inst b op).base v = .unknown v := by
      unfold Kind.base
      split <;> simp_all
    exact .inr ⟨ends, by rw [unknown]⟩
  all_goals
    cases found
    exact .inr ⟨rfl, rfl⟩

theorem advance_cons (found : advance p o (step :: rest) = .ok o') : ∃ b, stepBytes p step = .ok b ∧
    ((∃ x d, o = some x ∧ b = some d ∧ advance p (some (x + d)) rest = .ok o') ∨ advance p none rest = .ok o') := by
  rw [advance, List.foldlM_cons] at found
  obtain ⟨next, first, found⟩ := Checked.bind_eq_ok.1 found
  obtain ⟨b, bytes, first⟩ := Checked.bind_eq_ok.1 first
  refine ⟨b, bytes, ?_⟩
  split at first
  case h_1 _ x d _ =>
    obtain ⟨sum, inRange, ⟨⟩⟩ := Checked.bind_eq_ok.1 first
    obtain rfl := eq_of_requireInt64 inRange
    exact .inl ⟨x, d, rfl, rfl, found⟩
  case h_2 =>
    cases first
    exact .inr found

theorem eq_none_of_advance (found : advance p none steps = .ok o) : o = none := by
  induction steps with
  | nil =>
    cases found
    rfl
  | cons step rest ih =>
    obtain ⟨b, -, ⟨x, d, ⟨⟩, -⟩ | found⟩ := advance_cons found
    exact ih found

theorem ofInt_of_stepBytes (le : w ≤ 64)
    (consts : ∀ i ∈ step.index?, ∀ c, p.const? i = .ok (some c) → index i = .ofInt w c)
    (found : stepBytes p step = .ok (some d)) : BitVec.ofInt w d = step.extent index := by
  cases step with
  | field offset =>
    have size : signedSize offset = d := Option.some.inj (Except.ok.inj found)
    rw [← size]
    exact ofInt_signedSize le offset
  | index size i =>
    obtain ⟨c, const, found⟩ := Checked.bind_eq_ok.1 found
    cases c with
    | none => cases found
    | some c =>
      obtain ⟨product, inRange, ⟨⟩⟩ := Checked.bind_eq_ok.1 found
      obtain rfl := eq_of_requireInt64 inRange
      rw [BitVec.ofInt_mul, ofInt_signedSize le, GepStep.extent, consts i rfl c const]

/-- A known offset is the sum of what the steps add, at any width up to 64 bits. -/
theorem ofInt_of_advance (le : w ≤ 64)
    (consts : ∀ i ∈ steps.filterMap GepStep.index?, ∀ c, p.const? i = .ok (some c) → index i = .ofInt w c)
    (found : advance p o steps = .ok (some d)) :
    ∃ x, o = some x ∧ BitVec.ofInt w d = .ofInt w x + GepStep.span index steps := by
  induction steps generalizing o with
  | nil =>
    cases found
    exact ⟨d, rfl, by simp⟩
  | cons step rest ih =>
    obtain ⟨b, bytes, ⟨x, e, rfl, rfl, found⟩ | found⟩ := advance_cons found
    · have first : ∀ i ∈ step.index?, ∀ c, p.const? i = .ok (some c) → index i = .ofInt w c := fun i hi =>
        consts i (List.mem_filterMap.2 ⟨step, by simp, hi⟩)
      have later : ∀ i ∈ rest.filterMap GepStep.index?, ∀ c, p.const? i = .ok (some c) → index i = .ofInt w c := by
        intro i hi
        obtain ⟨s, hs, hi⟩ := List.mem_filterMap.1 hi
        exact consts i (List.mem_filterMap.2 ⟨s, by simp [hs], hi⟩)
      obtain ⟨y, same, sum⟩ := ih later found
      cases same
      refine ⟨x, rfl, ?_⟩
      rw [sum, BitVec.ofInt_add, ofInt_of_stepBytes le first bytes, GepStep.span_cons, BitVec.add_assoc]
    · cases eq_none_of_advance found

/-- The address computations and bit casts on the way to a base, of which there are at most `n`. -/
def links (p : Program) : Nat → ValueId → List ValueId
  | 0, _ => []
  | n + 1, v =>
    match p.origin? v with
    | some (u, _) => v :: links p n u
    | none => []

/-- The places of pointers at `w` bits, of which that of `v` is computed from its origin. -/
def Moves (p : Program) (place index : ValueId → BitVec w) (v : ValueId) : Prop :=
  ∀ u steps, p.origin? v = some (u, steps) → place v = place u + GepStep.span index steps ∧
    ∀ i ∈ steps.filterMap GepStep.index?, ∀ c, p.const? i = .ok (some c) → index i = .ofInt w c

theorem distance_of_follow {place : ValueId → BitVec w} {r : ValueId} (le : w ≤ 64) (found : follow p n v o = .ok l)
    (root : l.base.root? = some r) (known : l.offset = some d) (moves : ∀ u ∈ links p n v, Moves p place index u) :
    ∃ x, o = some x ∧ place v + .ofInt w x = place r + .ofInt w d := by
  induction n generalizing v o with
  | zero =>
    cases found
    cases root
    exact ⟨d, known, rfl⟩
  | succ n ih =>
    obtain ⟨k, kind, ⟨u, steps, o', origin, advanced, found⟩ | ⟨-, rfl⟩⟩ := follow_succ found
    · have isOrigin := Program.origin?_eq_some kind origin
      simp only [links, isOrigin, List.forall_mem_cons] at moves
      obtain ⟨moved, consts⟩ := moves.1 u steps isOrigin
      obtain ⟨y, rfl, there⟩ := ih found moves.2
      obtain ⟨x, rfl, sum⟩ := ofInt_of_advance le consts advanced
      refine ⟨x, rfl, ?_⟩
      rw [← there, sum, moved]
      ac_rfl
    · obtain rfl := Kind.eq_of_root?_base root
      exact ⟨d, known, rfl⟩

end Location

/-! ### Environments -/

/-- An environment: the object into which each pointer points, if it points to data, and at which byte, and what
each index counts. An allocation or a global points to the start of an object of its own, address computations
add their steps, and bit casts change nothing. Constants, null and functions are no data. -/
structure Provenance (p : Program) (Object : Type) where
  /-- Where an object comes from. -/
  site : Object → ValueId
  object : ValueId → Option Object
  offset : ValueId → BitVec 64
  index : ValueId → BitVec 64
  index_const : ∀ v c, p.const? v = .ok (some c) → index v = .ofInt 64 c
  alloca : ∀ v b bytes, p.kind? v = some (.inst b (.alloca bytes)) →
    (∃ a, object v = some a ∧ site a = v) ∧ offset v = 0
  global : ∀ v name init, p.kind? v = some (.global name init) → (∃ a, object v = some a ∧ site a = v) ∧ offset v = 0
  gep : ∀ v b base steps, p.kind? v = some (.inst b (.gep base steps)) →
    object v = object base ∧ offset v = offset base + GepStep.span index steps
  bitCast : ∀ v b x, p.kind? v = some (.inst b (.cast .bitCast x)) → object v = object x ∧ offset v = offset x
  const : ∀ v c, p.kind? v = some (.const c) → object v = none
  null : ∀ v, p.kind? v = some .null → object v = none
  function : ∀ v f, p.kind? v = some (.function f) → object v = none

namespace Provenance
variable {p : Program} {Object : Type} (π : Provenance p Object) {v x y : ValueId} {k : Kind} {n : Nat}
  {o : Option Int} {l a b : Location}

theorem of_origin? {u : ValueId} {steps : List GepStep} (kind : p.kind? v = some k)
    (origin : k.origin? = some (u, steps)) :
    π.object v = π.object u ∧ π.offset v = π.offset u + GepStep.span π.index steps := by
  unfold Kind.origin? at origin
  split at origin <;> cases origin
  · exact π.gep _ _ _ _ kind
  · obtain ⟨object, offset⟩ := π.bitCast _ _ _ kind
    exact ⟨object, by simp [offset]⟩

theorem moves (v : ValueId) : Location.Moves p π.offset π.index v := by
  intro u steps origin
  obtain ⟨k, kind, origin⟩ := Option.bind_eq_some_iff.1 origin
  exact ⟨(π.of_origin? kind origin).2, fun i _ => π.index_const i⟩

/-- What a base says about a pointer. -/
structure Places (π : Provenance p Object) (v : ValueId) (base : Base) : Prop where
  root : ∀ r, base.root? = some r → π.object v = π.object r
  object : ∀ r, base = .object r → ∃ a, π.object v = some a ∧ π.site a = r
  noData : base = .noData → π.object v = none

theorem places_base (kind : p.kind? v = some k) : π.Places v (k.base v) where
  root r named := by rw [Kind.eq_of_root?_base named]
  object r same := by
    unfold Kind.base at same
    split at same <;> cases same
    · exact (π.alloca _ _ _ kind).1
    · exact (π.global _ _ _ kind).1
  noData same := by
    unfold Kind.base at same
    split at same <;> cases same
    · exact π.const _ _ kind
    · exact π.null _ kind
    · exact π.function _ _ kind

/-- Following a pointer leads to a base that is its own, however far it is followed. -/
theorem places_follow (found : Location.follow p n v o = .ok l) : π.Places v l.base := by
  induction n generalizing v o with
  | zero =>
    cases found
    refine ⟨?_, by simp, by simp⟩
    rintro r ⟨⟩
    rfl
  | succ n ih =>
    obtain ⟨k, kind, ⟨u, steps, o', origin, -, found⟩ | ⟨-, rfl⟩⟩ := Location.follow_succ found
    · have object := (π.of_origin? kind origin).1
      have rest := ih found
      exact ⟨object ▸ rest.root, object ▸ rest.object, object ▸ rest.noData⟩
    · exact π.places_base kind

theorem offset_of_ofValue {r : ValueId} {d : Int} (found : Location.ofValue p v = .ok l)
    (root : l.base.root? = some r) (known : l.offset = some d) : π.offset v = π.offset r + .ofInt 64 d := by
  obtain ⟨_, ⟨⟩, there⟩ := Location.distance_of_follow le_rfl found root known fun u _ => π.moves u
  simpa using there

theorem eq_of_mustAlias (ha : Location.ofValue p x = .ok a) (hb : Location.ofValue p y = .ok b)
    (same : a.mustAlias b = true) : π.object x = π.object y ∧ π.offset x = π.offset y := by
  simp only [Location.mustAlias, Bool.and_eq_true, decide_eq_true_eq, Option.isSome_iff_exists] at same
  obtain ⟨⟨⟨data, base⟩, d, known⟩, known'⟩ := same
  obtain ⟨r, root⟩ : ∃ r, a.base.root? = some r := by
    cases named : a.base <;> simp_all [Base.root?]
  have root' : b.base.root? = some r := base ▸ root
  refine ⟨?_, ?_⟩
  · rw [(π.places_follow ha).root r root, (π.places_follow hb).root r root']
  · rw [π.offset_of_ofValue ha root known, π.offset_of_ofValue hb root' (known' ▸ known)]

theorem mayAlias_of_object {ob : Object} (ha : π.Places x a.base) (hb : π.Places y b.base)
    (hx : π.object x = some ob) (hy : π.object y = some ob) : a.mayAlias b = true := by
  have dataA : a.base ≠ .noData := fun none => by simp [ha.noData none] at hx
  have dataB : b.base ≠ .noData := fun none => by simp [hb.noData none] at hy
  unfold Location.mayAlias
  split
  case h_1 none => exact absurd none dataA
  case h_2 none _ => exact absurd none dataB
  case h_3 r q hr hq =>
    obtain ⟨_, there, site⟩ := ha.object r hr
    obtain ⟨_, there', site'⟩ := hb.object q hq
    cases hx.symm.trans there
    cases hy.symm.trans there'
    simp [← site, ← site']
  case h_4 => rfl

end Provenance

theorem Memory.location_of_lt {p : Program} {calls : CallGraph} {m : Memory} (made : Memory.ofProgram p calls = .ok m)
    {v : ValueId} (lt : v < p.values.size) : ∃ l, m.location v = .ok l ∧ Location.ofValue p v = .ok l := by
  obtain ⟨ls, located, made⟩ := Checked.bind_eq_ok.1 made
  obtain ⟨_, _, ⟨⟩⟩ := Checked.bind_eq_ok.1 made
  have all := forall₂_of_mapM_eq_ok located
  have length : ls.length = p.values.size := by simpa [Program.valueIds] using all.length_eq.symm
  have inList : v < ls.length := lt.trans_eq length.symm
  have found := (List.forall₂_iff_get.1 all).2 v (by simpa [Program.valueIds] using lt) inList
  refine ⟨ls[v], ?_, by simpa [Program.valueIds] using found⟩
  simp [location, inList]

/-! ### Precision -/

def Program.IsRank (p : Program) (rank : ValueId → Nat) : Prop :=
  ∀ v u steps, p.origin? v = some (u, steps) → rank u < rank v

/-- No pointer is computed from itself. -/
def Program.Grounded (p : Program) : Prop := ∃ rank, p.IsRank rank

theorem Location.follow_ends {p : Program} {v : ValueId} {n : Nat} {o : Option Int} {l : Location}
    {rank : ValueId → Nat} (falls : p.IsRank rank) (found : follow p n v o = .ok l) :
    (∃ r k, p.kind? r = some k ∧ k.origin? = none ∧ l.base = k.base r) ∨
      ∃ vs : List ValueId, vs.length = n ∧ vs.Nodup ∧ ∀ u ∈ vs, u < p.values.size ∧ rank u ≤ rank v := by
  induction n generalizing v o with
  | zero => exact .inr ⟨[], rfl, .nil, by simp⟩
  | succ n ih =>
    obtain ⟨k, kind, ⟨u, steps, o', origin, -, found⟩ | ⟨ends, rfl⟩⟩ := follow_succ found
    · obtain done | ⟨vs, length, nodup, below⟩ := ih found
      · exact .inl done
      have lt := falls v u steps (Program.origin?_eq_some kind origin)
      have fresh : v ∉ vs := fun visited => by
        have := (below v visited).2
        omega
      refine .inr ⟨v :: vs, by simp [length], nodup.cons fresh, ?_⟩
      intro w visited
      obtain rfl | visited := List.mem_cons.1 visited
      · exact ⟨Program.lt_of_kind? kind, le_rfl⟩
      · exact ⟨(below w visited).1, (below w visited).2.trans lt.le⟩
    · exact .inl ⟨v, k, kind, ends, rfl⟩

/-- There are not enough values for a way as long as the one that is followed. -/
theorem Location.ofValue_ends {p : Program} {v : ValueId} {l : Location} (grounded : p.Grounded)
    (found : ofValue p v = .ok l) : ∃ r k, p.kind? r = some k ∧ k.origin? = none ∧ l.base = k.base r := by
  obtain ⟨rank, falls⟩ := grounded
  obtain done | ⟨vs, length, nodup, below⟩ := follow_ends falls found
  · exact done
  have listed : vs ⊆ List.range p.values.size := fun u visited => List.mem_range.2 (below u visited).1
  have few := (nodup.subperm listed).length_le
  rw [length, List.length_range] at few
  omega

namespace Program
variable {α : Type} (p : Program) (start : ValueId → α) (move : List GepStep → α → α)

/-- What pointers have that starts at their bases and is changed by each computation, of which there are at most `n`. -/
def carry : Nat → ValueId → α
  | 0, v => start v
  | n + 1, v =>
    match p.origin? v with
    | some (u, steps) => move steps (carry n u)
    | none => start v

variable {p} in
theorem carry_eq {rank : ValueId → Nat} (falls : p.IsRank rank) {n m : Nat} {v : ValueId} (hn : rank v < n)
    (hm : rank v < m) : p.carry start move n v = p.carry start move m v := by
  induction n generalizing m v with
  | zero => omega
  | succ n ih =>
    cases m with
    | zero => omega
    | succ m =>
      unfold carry
      split
      case h_1 u steps origin =>
        have lt := falls v u steps origin
        rw [ih (by omega : rank u < n) (by omega : rank u < m)]
      case h_2 => rfl

variable {p} in
/-- Where ways end, each pointer has something that is computed from what its origin has. -/
theorem Grounded.exists_carried (grounded : p.Grounded) :
    ∃ f : ValueId → α, (∀ v, p.origin? v = none → f v = start v) ∧
      ∀ v u steps, p.origin? v = some (u, steps) → f v = move steps (f u) := by
  obtain ⟨rank, falls⟩ := grounded
  refine ⟨fun v => p.carry start move (rank v + 1) v, fun v ends => ?_, fun v u steps origin => ?_⟩
  · simp only [carry, ends]
  · have lt := falls v u steps origin
    simp only [carry, origin]
    exact congrArg (move steps) (carry_eq start move falls lt (Nat.lt_succ_self _))

end Program

/-- The object that a pointer points into, where unknown pointers all point into one. -/
def Base.pointee (shared : ValueId) : Base → Option ValueId
  | object v => some v
  | unknown _ => some shared
  | noData => none

theorem Location.mayAlias_iff {a b : Location} :
    a.mayAlias b = true ↔ ∃ shared o, a.base.pointee shared = some o ∧ b.base.pointee shared = some o := by
  obtain ⟨base, _⟩ := a
  obtain ⟨base', _⟩ := b
  cases base <;> cases base' <;> simp [mayAlias, Base.pointee, eq_comm]

namespace Provenance
variable {p : Program} {shared : ValueId} {f : ValueId → Option ValueId × BitVec 64}

def constIndex (p : Program) (v : ValueId) : BitVec 64 :=
  match p.const? v with
  | .ok (some c) => .ofInt 64 c
  | _ => 0

/-- An environment in which unknown pointers all point to the start of one object. -/
def sharing (roots : ∀ v k, p.kind? v = some k → k.origin? = none → f v = ((k.base v).pointee shared, 0))
    (moved : ∀ v k u steps, p.kind? v = some k → k.origin? = some (u, steps) →
      f v = ((f u).1, (f u).2 + GepStep.span (constIndex p) steps)) : Provenance p ValueId where
  site := id
  object v := (f v).1
  offset v := (f v).2
  index := constIndex p
  index_const v c const := by simp [constIndex, const]
  alloca v b bytes kind := by simp [roots v _ kind rfl, Kind.base, Base.pointee]
  global v name init kind := by simp [roots v _ kind rfl, Kind.base, Base.pointee]
  gep v b base steps kind := by simp [moved v _ _ _ kind rfl]
  bitCast v b x kind := by simp [moved v _ _ _ kind rfl]
  const v c kind := by simp [roots v _ kind rfl, Kind.base, Base.pointee]
  null v kind := by simp [roots v _ kind rfl, Kind.base, Base.pointee]
  function v g kind := by simp [roots v _ kind rfl, Kind.base, Base.pointee]

theorem exists_sharing (grounded : p.Grounded) (shared : ValueId) :
    ∃ π : Provenance p ValueId, ∀ v l, Location.ofValue p v = .ok l → π.object v = l.base.pointee shared := by
  obtain ⟨f, atBase, moved⟩ := grounded.exists_carried
    (fun v => ((p.kind? v).bind fun k => (k.base v).pointee shared, (0 : BitVec 64)))
    (fun steps there => (there.1, there.2 + GepStep.span (constIndex p) steps))
  have roots v k (kind : p.kind? v = some k) (ends : k.origin? = none) : f v = ((k.base v).pointee shared, 0) := by
    rw [atBase v (by rw [Program.origin?, kind, Option.bind_some, ends]), kind, Option.bind_some]
  have computed v k u steps (kind : p.kind? v = some k) (origin : k.origin? = some (u, steps)) :=
    moved v u steps (Program.origin?_eq_some kind origin)
  refine ⟨sharing roots computed, fun v l found => ?_⟩
  have places := (sharing roots computed).places_follow found
  obtain ⟨r, k, kind, ends, base⟩ := Location.ofValue_ends grounded found
  cases pointed : l.base with
  | object q =>
    obtain ⟨_, there, rfl⟩ := places.object q pointed
    exact there
  | unknown q =>
    have named : l.base.root? = some q := by rw [pointed, Base.root?]
    obtain rfl := Kind.eq_of_root?_base (base ▸ named)
    rw [places.root r named, ← pointed, base]
    exact congrArg Prod.fst (roots r k kind ends)
  | noData => exact places.noData pointed

end Provenance

/-- Pointers that must alias point to one byte in every environment, and pointers into one object may alias.
Where ways end, pointers may alias only if some environment has them point into one object. -/
theorem Memory.alias_sound {p : Program} {calls : CallGraph} {m : Memory} (made : Memory.ofProgram p calls = .ok m)
    {x y : ValueId} (hx : x < p.values.size) (hy : y < p.values.size) :
    ∃ must may, m.mustAlias x y = .ok must ∧ m.mayAlias x y = .ok may ∧
      (∀ (Object : Type) (π : Provenance p Object),
        (must = true → π.object x = π.object y ∧ π.offset x = π.offset y) ∧
          ∀ o, π.object x = some o → π.object y = some o → may = true) ∧
      (p.Grounded → may = true → ∃ (π : Provenance p ValueId) (o : ValueId),
        π.object x = some o ∧ π.object y = some o) := by
  obtain ⟨a, la, ha⟩ := location_of_lt made hx
  obtain ⟨b, lb, hb⟩ := location_of_lt made hy
  refine ⟨x = y || a.mustAlias b, a.mayAlias b, ?_, by rw [mayAlias, la, lb]; rfl, fun Object π => ⟨?_, ?_⟩, ?_⟩
  · by_cases same : x = y
    · simp [mustAlias, same]
    · simp [mustAlias, same, la, lb]
  · intro must
    obtain same | must := Bool.or_eq_true_iff.1 must
    · obtain rfl := of_decide_eq_true same
      exact ⟨rfl, rfl⟩
    · exact π.eq_of_mustAlias ha hb must
  · intro o ox oy
    exact π.mayAlias_of_object (π.places_follow ha) (π.places_follow hb) ox oy
  · intro grounded may
    obtain ⟨shared, o, oa, ob⟩ := Location.mayAlias_iff.1 may
    obtain ⟨π, object⟩ := Provenance.exists_sharing grounded shared
    exact ⟨π, o, (object x a ha).trans oa, (object y b hb).trans ob⟩

/-- Two ways to the second word of a table, an allocation, and a place behind a parameter. -/
def Program.striding : Program where
  values := #[
    { ty := .ptr, kind := .global "table" none },
    { ty := .ptr, kind := .param 0 0 },
    { ty := .int 64, kind := .const (-1) },
    { ty := .ptr, kind := .inst 0 (.alloca 16) },
    { ty := .ptr, kind := .inst 0 (.gep 0 [.field 8, .index 4 2]) },
    { ty := .ptr, kind := .inst 0 (.cast .bitCast 4) },
    { ty := .ptr, kind := .inst 0 (.gep 0 [.field 4]) },
    { ty := .ptr, kind := .inst 0 (.gep 1 [.index 8 2]) }]
  blocks := #[{ func := 0, name := "entry", insts := [3, 4, 5, 6, 7], term := .ret none }]
  functions := #[{ name := "main", params := [1], ret := .void, blocks := [0] }]

theorem Program.grounded_striding : Program.striding.Grounded := by
  have earlier : ∀ v < Program.striding.values.size, ∀ source ∈ Program.striding.origin? v, source.1 < v := by decide
  refine ⟨id, fun v u steps origin => ?_⟩
  obtain ⟨k, kind, -⟩ := Option.bind_eq_some_iff.1 origin
  exact earlier v (lt_of_kind? kind) _ origin

/-- The two ways lead to one byte, which is not in the allocation and may be behind the parameter. -/
theorem Memory.alias_sound_striding : ∃ m, Memory.ofProgram .striding ⟨#[]⟩ = .ok m ∧
    m.mustAlias 5 6 = .ok true ∧ m.mayAlias 5 3 = .ok false ∧ m.mayAlias 5 7 = .ok true ∧
    (∀ (Object : Type) (π : Provenance .striding Object), π.object 5 = π.object 6 ∧ π.offset 5 = π.offset 6 ∧
      ∀ o, π.object 5 = some o → π.object 3 ≠ some o) ∧
    ∃ (π : Provenance .striding ValueId) (o : ValueId), π.object 5 = some o ∧ π.object 7 = some o := by
  obtain ⟨m, made, answers⟩ : ∃ m, Memory.ofProgram .striding ⟨#[]⟩ = .ok m ∧
      m.mustAlias 5 6 = .ok true ∧ m.mayAlias 5 3 = .ok false ∧ m.mayAlias 5 7 = .ok true := ⟨_, rfl, by decide⟩
  obtain ⟨same, apart, behind⟩ := answers
  refine ⟨m, made, same, apart, behind, fun Object π => ?_, ?_⟩
  · obtain ⟨_, _, must, -, sound, -⟩ := alias_sound made (x := 5) (y := 6) (by decide) (by decide)
    cases must.symm.trans same
    obtain ⟨object, offset⟩ := (sound Object π).1 rfl
    refine ⟨object, offset, fun o five three => ?_⟩
    obtain ⟨_, _, -, may, sound, -⟩ := alias_sound made (x := 5) (y := 3) (by decide) (by decide)
    cases may.symm.trans apart
    cases (sound Object π).2 o five three
  · obtain ⟨_, _, -, may, -, precise⟩ := alias_sound made (x := 5) (y := 7) (by decide) (by decide)
    cases may.symm.trans behind
    exact precise Program.grounded_striding rfl

end SsaFacts
