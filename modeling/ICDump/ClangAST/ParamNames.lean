/-
The names of parameters (`ASTGen::decl_method`).

A parameter is called `self` if it is an object and comes first, `id` if it is a selector, and
after its index otherwise.  The numbers are all different, so names can only be the same when there
are two selectors.
-/
import ICDump.ClangAST.NullSafety

namespace ICDump

namespace ASTGen

variable {n n' : ℕ}

/-! ### The names -/

/-- The name of the parameter at an index. -/
def paramName : ℕ → Ty → Str
  | 0, .object _ => ['s', 'e', 'l', 'f']
  | _, .selector => ['i', 'd']
  | i, _ => argName i

/-- The names of the parameters from an index on. -/
def paramNames : ℕ → List Ty → List Str
  | _, [] => []
  | i, p :: ps => paramName i p :: paramNames (i + 1) ps

/-- The type is a selector. -/
def isSelector : Ty → Bool
  | .selector => true
  | _ => false

lemma argName_injective : Function.Injective argName := by
  intro i j h
  have hdigits : Nat.toDigits 10 i = Nat.toDigits 10 j := List.append_cancel_left h
  rw [← Nat.ofDigitChars_ten_toDigits (n := i), hdigits, Nat.ofDigitChars_ten_toDigits]

lemma argName_ne_id (i : ℕ) : argName i ≠ ['i', 'd'] := by
  intro h
  exact absurd (List.cons.inj h).1 (by decide)

/-- Every parameter that is no selector has a name of its own. -/
lemma paramName_cases (i : ℕ) (p : Ty) :
    isSelector p ∧ paramName i p = ['i', 'd'] ∨
      ¬ isSelector p ∧
        (paramName i p = argName i ∨ i = 0 ∧ paramName i p = ['s', 'e', 'l', 'f']) := by
  cases p <;> cases i <;> simp [isSelector, paramName]

/-- The names of later parameters tell their indices, unless they are selectors. -/
lemma mem_paramNames {i : ℕ} {ps : List Ty} {w : Str} (hi : 0 < i) (h : w ∈ paramNames i ps) :
    w = ['i', 'd'] ∧ (∃ p ∈ ps, isSelector p) ∨ ∃ j, i ≤ j ∧ w = argName j := by
  induction ps generalizing i with
  | nil => exact absurd h List.not_mem_nil
  | cons p ps ih =>
      rw [paramNames, List.mem_cons] at h
      rcases h with rfl | h
      · rcases paramName_cases i p with ⟨hp, hname⟩ | ⟨-, hname | ⟨hzero, -⟩⟩
        · exact Or.inl ⟨hname, p, List.mem_cons_self, hp⟩
        · exact Or.inr ⟨i, le_rfl, hname⟩
        · omega
      · rcases ih (Nat.succ_pos i) h with ⟨hw, q, hq, hsel⟩ | ⟨j, hj, hw⟩
        · exact Or.inl ⟨hw, q, List.mem_cons_of_mem p hq, hsel⟩
        · exact Or.inr ⟨j, by omega, hw⟩

lemma id_mem_paramNames {i : ℕ} {ps : List Ty} (h : ∃ p ∈ ps, isSelector p) :
    ['i', 'd'] ∈ paramNames i ps := by
  induction ps generalizing i with
  | nil =>
      obtain ⟨p, hp, -⟩ := h
      exact absurd hp List.not_mem_nil
  | cons p ps ih =>
      rw [paramNames, List.mem_cons]
      rcases paramName_cases i p with ⟨-, hname⟩ | ⟨hp, -⟩
      · exact Or.inl hname.symm
      · rw [List.exists_mem_cons_iff] at h
        exact Or.inr (ih (h.resolve_left hp))

/-- The first name is not given again, unless it is that of one selector of several. -/
lemma paramName_notMem_iff (i : ℕ) (p : Ty) (ps : List Ty) :
    paramName i p ∉ paramNames (i + 1) ps ↔ (isSelector p → ∀ q ∈ ps, ¬ isSelector q) := by
  rcases paramName_cases i p with ⟨hp, hname⟩ | ⟨hp, hname⟩
  · rw [hname, imp_iff_right hp]
    constructor
    · exact fun h q hq hsel => h (id_mem_paramNames ⟨q, hq, hsel⟩)
    · intro h hmem
      rcases mem_paramNames (Nat.succ_pos i) hmem with ⟨-, q, hq, hsel⟩ | ⟨j, -, hj⟩
      · exact h q hq hsel
      · exact argName_ne_id j hj.symm
  · refine iff_of_true (fun hmem => ?_) fun hsel => absurd hsel hp
    rcases mem_paramNames (Nat.succ_pos i) hmem with ⟨hid, -⟩ | ⟨j, hj, harg⟩
    · rcases hname with hname | ⟨-, hname⟩
      · exact argName_ne_id i (hname.symm.trans hid)
      · exact absurd (hname.symm.trans hid) (by decide)
    · rcases hname with hname | ⟨-, hname⟩
      · have hij := argName_injective (hname.symm.trans harg)
        omega
      · exact absurd (List.cons.inj (hname.symm.trans harg)).1 (by decide)

/-- The names are distinct as long as there is one selector at most. -/
lemma nodup_paramNames_iff (i : ℕ) (ps : List Ty) :
    (paramNames i ps).Nodup ↔ ps.countP isSelector ≤ 1 := by
  induction ps generalizing i with
  | nil => simp [paramNames]
  | cons p ps ih =>
      rw [paramNames, List.nodup_cons, paramName_notMem_iff, ih, List.countP_cons]
      have hnone : (∀ q ∈ ps, ¬ isSelector q) ↔ ps.countP isSelector = 0 :=
        List.countP_eq_zero.symm
      rw [hnone]
      cases isSelector p with
      | true =>
          rw [if_pos rfl, imp_iff_right rfl]
          omega
      | false => simp

/-! ### The declared parameters -/

/-- There is one declaration for each type, in the same order, made at its index. -/
inductive DeclaresEach (dc inside : DeclContext) : ℕ → List Ty → List ParmVarDecl → Prop
  | nil {i : ℕ} : DeclaresEach dc inside i [] []
  | cons {i n n' : ℕ} {p : Ty} {ps : List Ty} {d : ParmVarDecl} {ds : List ParmVarDecl}
      (h : declParam dc inside i p n = .ok (d, n')) (hrest : DeclaresEach dc inside (i + 1) ps ds) :
      DeclaresEach dc inside i (p :: ps) (d :: ds)

variable {dc inside : DeclContext} {i : ℕ} {ps : List Ty} {ds : List ParmVarDecl}

lemma name_declParam {p : Ty} {d : ParmVarDecl} (h : declParam dc inside i p n = .ok (d, n')) :
    d.name = paramName i p := by
  unfold declParam at h
  split at h
  · cases h
  · split at h
    · obtain ⟨rfl, -⟩ := pure_eq_ok.1 h
      rfl
    · obtain ⟨qt, n₁, -, h⟩ := bind_eq_ok.1 h
      obtain ⟨rfl, -⟩ := pure_eq_ok.1 h
      rfl
  · obtain ⟨qt, n₁, -, h⟩ := bind_eq_ok.1 h
    obtain ⟨rfl, -⟩ := pure_eq_ok.1 h
    cases i <;> rfl
  · -- neither a selector nor an object that comes first
    rename_i hselector hobject
    obtain ⟨qt, n₁, -, h⟩ := bind_eq_ok.1 h
    obtain ⟨rfl, -⟩ := pure_eq_ok.1 h
    show argName i = paramName i p
    rw [paramName]
    · exact hselector
    · exact fun name hi hp => hobject name hp hi

lemma DeclaresEach.names (h : DeclaresEach dc inside i ps ds) :
    ds.map ParmVarDecl.name = paramNames i ps := by
  induction h with
  | nil => rfl
  | cons hd hrest ih => rw [List.map_cons, ih, name_declParam hd, paramNames]

lemma declParams_declaresEach (h : declParams dc inside i ps n = .ok (ds, n')) :
    DeclaresEach dc inside i ps ds := by
  induction ps generalizing i n n' ds with
  | nil =>
      obtain ⟨rfl, -⟩ := pure_eq_ok.1 h
      exact .nil
  | cons p ps ih =>
      obtain ⟨d, n₁, hd, h⟩ := bind_eq_ok.1 h
      obtain ⟨ds', n₂, hds, h⟩ := bind_eq_ok.1 h
      obtain ⟨rfl, -⟩ := pure_eq_ok.1 h
      exact .cons hd (ih hds)

/-- Declaring a method declares each of its parameters. -/
lemma declMethod_declaresEach {meth : Method} {d : MethodDecl} {dc' : DeclContext}
    (h : declMethod meth dc n = .ok ((d, dc'), n')) :
    DeclaresEach dc (dc.inner d.decl) 0 meth.prototype.params d.params := by
  obtain ⟨-, -, m, m', hparams⟩ := declMethod_eq_ok h
  exact declParams_declaresEach hparams

/-- **The names of the parameters are distinct**, and each parameter is declared once, exactly when
no type of the method ends in an array without an element type, and one parameter at most is a
selector. -/
theorem declMethod_names_iff (meth : Method) (dc : DeclContext) (n : ℕ)
    (hdecode : decodeType meth.mangledType ≠ []) :
    (∃ d dc' n', declMethod meth dc n = .ok ((d, dc'), n') ∧
        DeclaresEach dc (dc.inner d.decl) 0 meth.prototype.params d.params ∧
        (d.params.map ParmVarDecl.name).Nodup) ↔
      ¬ Hollow meth.mangledType ∧ meth.prototype.params.countP isSelector ≤ 1 := by
  have hsafe := safeIff_declMethod meth dc
  constructor
  · rintro ⟨d, dc', n', hrun, hdeclares, hnodup⟩
    rw [hdeclares.names, nodup_paramNames_iff] at hnodup
    refine ⟨fun hhollow => ?_, hnodup⟩
    have hfault := hsafe.faults (fun h => h.2 hhollow) n
    exact absurd (hrun.symm.trans hfault) (by simp)
  · rintro ⟨hhollow, hcount⟩
    cases hrun : declMethod meth dc n with
    | error e =>
        cases e
        exact absurd hrun (hsafe.safe ⟨hdecode, hhollow⟩ n)
    | ok r =>
        obtain ⟨⟨d, dc'⟩, n'⟩ := r
        have hdeclares := declMethod_declaresEach hrun
        refine ⟨d, dc', n', rfl, hdeclares, ?_⟩
        rw [hdeclares.names, nodup_paramNames_iff]
        exact hcount

/-- A method without parameters of its own. -/
def plainMethod : Method := ⟨['f'], ['v', '1', '6', '@', '0', ':', '8'], 0, true⟩

/-- The method `respondsTo:`, with a selector for its parameter. -/
def selectorMethod : Method :=
  ⟨['r', ':'], ['v', '2', '4', '@', '0', ':', '8', ':', '1', '6'], 0, true⟩

/-- A class to which nothing was added. -/
def emptyClass : DeclContext := ⟨⟨0, .interface, ['C']⟩, [[]]⟩

/-- The parameters of a method without parameters of its own are `self` and `id`. -/
theorem declMethod_names_plain :
    ∃ d dc' n', declMethod plainMethod emptyClass 1 = .ok ((d, dc'), n') ∧
      DeclaresEach emptyClass (emptyClass.inner d.decl) 0 plainMethod.prototype.params d.params ∧
      (d.params.map ParmVarDecl.name).Nodup := by
  have hdecode : decodeType plainMethod.mangledType =
      [.primitive .void, .object [], .selector] := rfl
  refine (declMethod_names_iff plainMethod emptyClass 1 (by rw [hdecode]; simp)).2 ⟨?_, ?_⟩
  · rw [hollow_iff, hdecode]
    simp [Ty.NullBelow]
  · rw [Method.prototype, hdecode]
    decide

/-- Both selectors of `respondsTo:` are called `id`. -/
theorem declMethod_names_selector :
    ¬ ∀ (meth : Method) (dc : DeclContext) (n : ℕ), decodeType meth.mangledType ≠ [] →
      (∀ p ∈ meth.prototype.params, p ≠ .null) →
      ∃ d dc' n', declMethod meth dc n = .ok ((d, dc'), n') ∧
        DeclaresEach dc (dc.inner d.decl) 0 meth.prototype.params d.params ∧
        (d.params.map ParmVarDecl.name).Nodup := by
  intro h
  have hdecode : decodeType selectorMethod.mangledType =
      [.primitive .void, .object [], .selector, .selector] := rfl
  have hparams : selectorMethod.prototype.params = [.object [], .selector, .selector] := by
    rw [Method.prototype, hdecode]
  obtain ⟨d, dc', n', -, hdeclares, hnodup⟩ :=
    h selectorMethod emptyClass 1 (by rw [hdecode]; simp) (by rw [hparams]; simp)
  rw [hdeclares.names, nodup_paramNames_iff, hparams] at hnodup
  exact absurd hnodup (by decide)

end ASTGen

end ICDump
