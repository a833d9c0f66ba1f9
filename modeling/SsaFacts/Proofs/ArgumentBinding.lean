import SsaFacts.Proofs.Operations

/-! The fact that binds a parameter. It holds exactly where the parameter is one of the arguments that are
passed where the function may be started, function addresses and what is not executed aside. -/
namespace SsaFacts

namespace Subject
variable {s : Subject} {formal site a : ValueId} {c : Clause} {x : ValueId}

theorem mem_ascending {xs : List Nat} : x ∈ ascending xs ↔ x ∈ xs := by
  rw [ascending, List.mem_eraseDups, List.mem_mergeSort]

/-- A call or the start of a thread that may be executed passes `a` for the parameter `formal`. -/
def Passes (s : Subject) (formal site a : ValueId) : Prop :=
  ∃ f index, s.program.kind formal = .ok (.param f index) ∧ site ∈ s.survey.callSites f ∧
    s.survey.instDead site = false ∧ s.program.actual? site index = .ok (some a)

/-- An integer or a pointer that is executed and is not the address of a function. -/
structure Carried (s : Subject) (a : ValueId) : Prop where
  typed : ∃ t, s.program.ty a = .ok t ∧ t.isIntegerOrPointer = true
  not_function : ∀ g, s.program.kind a ≠ .ok (.function g)
  instruction : ∀ b op, s.program.kind a = .ok (.inst b op) → s.survey.instDead a = false
  parameter : ∀ f index, s.program.kind a = .ok (.param f index) → s.survey.funcDead f = false

theorem observed_iff : s.observed a = .ok true ↔ s.Carried a := by
  cases hx : s.program.value a with
  | error fault =>
    have untyped : s.program.ty a = .error fault := by rw [Program.ty, hx]; rfl
    have unobserved : s.observed a = .error fault := by rw [observed, hx]; rfl
    rw [unobserved]
    refine iff_of_false (by simp) fun carried => ?_
    obtain ⟨t, isType, -⟩ := carried.typed
    cases untyped.symm.trans isType
  | ok x =>
    have isType : s.program.ty a = .ok x.ty := by rw [Program.ty, hx]; rfl
    have isKind : s.program.kind a = .ok x.kind := by rw [Program.kind, hx]; rfl
    have carried_iff : s.Carried a ↔ x.ty.isIntegerOrPointer = true ∧ (∀ g, x.kind ≠ .function g) ∧
        (∀ b op, x.kind = .inst b op → s.survey.instDead a = false) ∧
        ∀ f index, x.kind = .param f index → s.survey.funcDead f = false := by
      constructor
      · rintro ⟨⟨t, same, typed⟩, not_function, instruction, parameter⟩
        cases isType.symm.trans same
        rw [isKind] at not_function instruction parameter
        exact ⟨typed, fun g same => not_function g (by rw [same]), fun b op same => instruction b op (by rw [same]),
          fun f index same => parameter f index (by rw [same])⟩
      · rintro ⟨typed, not_function, instruction, parameter⟩
        refine ⟨⟨_, isType, typed⟩, ?_, ?_, ?_⟩ <;> simpa [isKind]
    rw [carried_iff, observed, hx, Checked.ok_bind]
    split
    case isTrue untyped =>
      refine iff_of_false (by simp) fun carried => ?_
      rw [carried.1] at untyped
      cases untyped
    case isFalse typed =>
      cases x.kind <;> simp_all

theorem exists_of_inArgument (found : s.inArgument formal = .ok (some c)) :
    ∃ (actuals : List ValueId) (cs : List Clause),
      (∀ a, a ∈ actuals ↔ (∃ site, s.Passes formal site a) ∧ s.Carried a) ∧
      (actuals.mapM fun a => s.equal formal a) = .ok cs ∧ Clause.any cs = some c := by
  obtain ⟨kind, isParam, found⟩ := Checked.bind_eq_ok.1 found
  cases kind with
  | param f index =>
    obtain ⟨fn, -, found⟩ := Checked.bind_eq_ok.1 found
    split at found
    · cases found
    obtain ⟨passed, hpassed, found⟩ := Checked.bind_eq_ok.1 found
    obtain ⟨actuals, kept, found⟩ := Checked.bind_eq_ok.1 found
    obtain ⟨cs, mapped, any⟩ := Checked.bind_eq_ok.1 found
    refine ⟨actuals, cs, fun a => ?_, mapped, Except.ok.inj any⟩
    have actual (site : ValueId) : Gives (s.program.actual? site index) fun o =>
        ∀ a, a ∈ o ↔ s.program.actual? site index = .ok (some a) := by
      intro o found a
      rw [show s.program.actual? site index = .ok o from found, Except.ok.injEq, Option.mem_def]
    have mem : a ∈ passed ↔ ∃ site, s.Passes formal site a := by
      rw [Gives.mem_filterMapM (fun site _ => actual site) passed hpassed a]
      simp only [List.mem_filter, Bool.not_eq_true']
      constructor
      · rintro ⟨site, ⟨mem, live⟩, actual⟩
        exact ⟨site, f, index, isParam, mem, live, actual⟩
      · rintro ⟨site, f', index', isParam', mem, live, actual⟩
        cases isParam.symm.trans isParam'
        exact ⟨site, ⟨mem, live⟩, actual⟩
    rw [Checked.mem_of_filterM kept, mem_ascending, mem, observed_iff]
  | const _ | null | global _ _ | function _ | inst _ _ => cases found

/-- The fact that binds a parameter is true exactly where the parameter equals one of the arguments that calls
and thread starts pass for it where they may be executed. Of these arguments the addresses of functions and
those that are themselves never executed do not count. -/
theorem inArgument_holds_iff (found : s.inArgument formal = .ok (some c)) (δ : ZeroDivision)
    (ρ : Valuation s.program) : c.denote δ ρ.env = true ↔
      ∃ site a, s.Passes formal site a ∧ s.Carried a ∧ ρ.read formal = ρ.read a := by
  obtain ⟨actuals, cs, mem, mapped, any⟩ := exists_of_inArgument found
  rw [(denote_any_equal (ρ := ρ) (f := id) mapped any).2]
  simp only [mem, id]
  constructor
  · rintro ⟨a, ⟨⟨site, passes⟩, carried⟩, same⟩
    exact ⟨site, a, passes, carried, same⟩
  · rintro ⟨site, a, passes, carried, same⟩
    exact ⟨a, ⟨⟨site, passes⟩, carried⟩, same⟩

end Subject

/-- Calls of a function with an argument, a constant and a result, and a thread that runs it. -/
def Program.notifying : Program where
  values := #[
    { ty := .int 1, kind := .param 0 0 },
    { ty := .int 1, kind := .const 1 },
    { ty := .int 1, kind := .param 1 0 },
    { ty := .ptr, kind := .function 1 },
    { ty := .int 1, kind := .inst 0 (.icmp .eq 0 1) },
    { ty := .void, kind := .inst 0 (.call (.direct 1) [1]) },
    { ty := .void, kind := .inst 0 (.call (.direct 1) [4]) },
    { ty := .void, kind := .inst 0 (.call (.direct 2) [0, 0, 3, 0]) }]
  blocks := #[
    { func := 0, name := "entry", insts := [4, 5, 6, 7], term := .ret none },
    { func := 1, name := "body", term := .ret none }]
  functions := #[
    { name := "main", params := [0], ret := .void, blocks := [0] },
    { name := "notify", params := [2], ret := .void, blocks := [1] },
    { name := Routine.threadSpawn, params := [], ret := .void }]

def Clause.notified : Clause :=
  let flag := .result 2 boolWidth
  .or (.or (.atom .eq flag (.result 0 boolWidth)) (.atom .eq flag (.ofInt boolWidth 1)))
    (.atom .eq flag (.result 4 boolWidth))

/-- A function that is called with a global and with the address of a function. -/
def Program.installing : Program where
  values := #[
    { ty := .ptr, kind := .global "table" none },
    { ty := .ptr, kind := .function 1 },
    { ty := .ptr, kind := .param 2 0 },
    { ty := .void, kind := .inst 0 (.call (.direct 2) [0]) },
    { ty := .void, kind := .inst 0 (.call (.direct 2) [1]) }]
  blocks := #[
    { func := 0, name := "entry", insts := [3, 4], term := .ret none },
    { func := 1, name := "body", term := .ret none },
    { func := 2, name := "body", term := .ret none }]
  functions := #[
    { name := "main", params := [], ret := .void, blocks := [0] },
    { name := "handler", params := [], ret := .void, blocks := [1] },
    { name := "install", params := [2], ret := .void, blocks := [2] }]

def Valuation.stepped (p : Program) : Valuation p where
  value v := ⟨p.modelWidth v, .ofNat _ (min v 1)⟩
  width_value _ := rfl

namespace Subject
open Program

theorem inArgument_holds_notifying : ∃ survey, Survey.ofProgram notifying [] = .ok survey ∧
    Subject.inArgument { program := notifying, survey } 2 = .ok (some .notified) ∧
    Subject.Passes { program := notifying, survey } 2 7 0 ∧
    ∀ (δ : ZeroDivision) (ρ : Valuation notifying), ρ.read 2 = ρ.read 0 → Clause.notified.denote δ ρ.env = true := by
  have found : (Survey.ofProgram notifying []).toOption.map (fun survey =>
      (Subject.inArgument { program := notifying, survey } 2, survey.callSites 1, survey.instDead 7,
        survey.funcDead 0)) = some (.ok (some .notified), [5, 6, 7], false, false) := by cbv
  obtain ⟨survey, made, read⟩ := Survey.exists_of_map_eq found
  obtain ⟨bound, sites, executed, started⟩ := by simpa only [Prod.mk.injEq] using read
  have passes : Subject.Passes { program := notifying, survey } 2 7 0 :=
    ⟨1, 0, rfl, by simp [sites], executed, rfl⟩
  have carried : Subject.Carried { program := notifying, survey } 0 := by
    refine ⟨⟨_, rfl, rfl⟩, fun g same => ?_, fun b op same => ?_, fun f index same => ?_⟩ <;> cases same
    exact started
  exact ⟨survey, made, bound, passes, fun δ ρ same =>
    (inArgument_holds_iff (s := { program := notifying, survey }) bound δ ρ).2 ⟨7, 0, passes, carried, same⟩⟩

/-- The call that passes the address of a function does not show in the fact. -/
theorem inArgument_misses_installing : ∃ survey, Survey.ofProgram installing [] = .ok survey ∧
    Subject.inArgument { program := installing, survey } 2 =
      .ok (some (.atom .eq (.result 2 wordWidth) (.result 0 wordWidth))) ∧
    Subject.Passes { program := installing, survey } 2 4 1 ∧
    ∀ δ : ZeroDivision, ∃ ρ : Valuation installing, ρ.read 2 = ρ.read 1 ∧
      (Clause.atom .eq (.result 2 wordWidth) (.result 0 wordWidth)).denote δ ρ.env = false := by
  have found : (Survey.ofProgram installing []).toOption.map (fun survey =>
      (Subject.inArgument { program := installing, survey } 2, survey.callSites 2, survey.instDead 4)) =
        some (.ok (some (.atom .eq (.result 2 wordWidth) (.result 0 wordWidth))), [3, 4], false) := by cbv
  obtain ⟨survey, made, read⟩ := Survey.exists_of_map_eq found
  obtain ⟨bound, sites, executed⟩ := by simpa only [Prod.mk.injEq] using read
  exact ⟨survey, made, bound, ⟨2, 0, rfl, by simp [sites], executed, rfl⟩,
    fun δ => ⟨.stepped _, rfl, rfl⟩⟩

end Subject
end SsaFacts
