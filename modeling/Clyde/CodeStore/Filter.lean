import Clyde.CodeStore.Table

/-!
# Row filters

`codestore/filter.go`: a filter tree is compiled once, with the decision of every leaf computed for
each dictionary number, and is then asked for row positions. `evalFilter` is its meaning in
three-valued logic: a comparison with an absent or null value is unknown. `compileFilter_eq` shows
that the compiled predicate is that evaluation at every position of a coherent memory.

Scope. The unsupported filter kinds are one constructor with the kind's name. A lookup out of range
panics in the source and is `none` here.
-/

set_option autoImplicit false

namespace Clyde.CodeStore

open Foundation ByteCodec KeyedRows List

inductive FilterKind
  | all
  | any
  | not
  | equals
  | isIn
  | range
  | isNull
  | isPresent
  | other (name : Bytes)
  deriving DecidableEq

/-- A filter tree. The fields that a kind does not read are ignored. -/
inductive Filter
  | mk (kind : FilterKind) (children : List Filter) (column : Bytes) (values : List ScalarValue)
    (lower upper : Option Int64)

inductive Truth
  | truthFalse
  | truthTrue
  | truthUnknown
  deriving DecidableEq

/-- The compiled filter: the truth at a position, or a panic. -/
abbrev Predicate := ℕ → Option Truth

def allOf : List Predicate → Truth → Predicate
  | [], result, _ => some result
  | child :: rest, result, position =>
    match child position with
    | none => none
    | some .truthFalse => some .truthFalse
    | some .truthUnknown => allOf rest .truthUnknown position
    | some .truthTrue => allOf rest result position

def anyOf : List Predicate → Truth → Predicate
  | [], result, _ => some result
  | child :: rest, result, position =>
    match child position with
    | none => none
    | some .truthTrue => some .truthTrue
    | some .truthUnknown => anyOf rest .truthUnknown position
    | some .truthFalse => anyOf rest result position

def notOf (child : Predicate) : Predicate := fun position ↦
  match child position with
  | none => none
  | some .truthTrue => some .truthFalse
  | some .truthFalse => some .truthTrue
  | some .truthUnknown => some .truthUnknown

def leafDecision (kind : FilterKind) (values : List ScalarValue) (lower upper : Option Int64) :
    Except Failure (ScalarValue → Bool → Truth) :=
  match kind with
  | .isNull => .ok fun _ present ↦ if present then .truthFalse else .truthTrue
  | .isPresent => .ok fun _ present ↦ if present then .truthTrue else .truthFalse
  | .range => .ok fun value present ↦
    if ¬present then .truthUnknown
    else if lower.any (value.int64 < ·) || upper.any (· ≤ value.int64) then .truthFalse
    else .truthTrue
  | .equals | .isIn => .ok fun value present ↦
    if ¬present then .truthUnknown
    else if value ∈ values then .truthTrue
    else .truthFalse
  | .other name => .error (.filterKind name)
  | _ => .error .filterLeaf

variable [Externals]

/-- Compiles a leaf: one decision per dictionary number, number zero for an absent value. -/
def compileLeaf (columns : List ScalarColumn) (memory : Memory) (kind : FilterKind)
    (column : Bytes) (values : List ScalarValue) (lower upper : Option Int64) :
    Except Failure Predicate :=
  match columnIndexOf columns column with
  | none => .error (.filterColumn column)
  | some index =>
    match leafDecision kind values lower upper with
    | .error failure => .error failure
    | .ok decide =>
      match memory.dictionaries[index]? with
      | none => .error .panic
      | some dictionary =>
        let decisions := decide Externals.emptyScalar false ::
          dictionary.values.tail.map fun value ↦ decide value !value.null
        .ok fun position ↦ do
          let row ← memory.rows[position]?
          let id ← row.cells[index]?
          decisions[id]?

mutual

def compileFilter (columns : List ScalarColumn) (memory : Memory) :
    Filter → Except Failure Predicate
  | .mk kind children column values lower upper =>
    match kind with
    | .all =>
      match compileFilters columns memory children with
      | .error failure => .error failure
      | .ok compiled => .ok (allOf compiled .truthTrue)
    | .any =>
      match compileFilters columns memory children with
      | .error failure => .error failure
      | .ok compiled => .ok (anyOf compiled .truthFalse)
    | .not =>
      if children.length ≠ 1 then .error (.notChildren children.length)
      else
        match compileFilters columns memory children with
        | .error failure => .error failure
        | .ok compiled => .ok (notOf (compiled.headD fun _ ↦ none))
    | .other name => .error (.filterKind name)
    | kind => compileLeaf columns memory kind column values lower upper

def compileFilters (columns : List ScalarColumn) (memory : Memory) :
    List Filter → Except Failure (List Predicate)
  | [] => .ok []
  | child :: rest =>
    match compileFilter columns memory child with
    | .error failure => .error failure
    | .ok compiled =>
      match compileFilters columns memory rest with
      | .error failure => .error failure
      | .ok others => .ok (compiled :: others)

end

def Truth.and : Truth → Truth → Truth
  | .truthFalse, _ => .truthFalse
  | _, .truthFalse => .truthFalse
  | .truthTrue, .truthTrue => .truthTrue
  | _, _ => .truthUnknown

def Truth.or : Truth → Truth → Truth
  | .truthTrue, _ => .truthTrue
  | _, .truthTrue => .truthTrue
  | .truthFalse, .truthFalse => .truthFalse
  | _, _ => .truthUnknown

def Truth.not : Truth → Truth
  | .truthTrue => .truthFalse
  | .truthFalse => .truthTrue
  | .truthUnknown => .truthUnknown

/-- The truth of a leaf for a cell: a value, a null, or an absent cell. -/
def leafTruth (kind : FilterKind) (values : List ScalarValue) (lower upper : Option Int64)
    (cell : Option ScalarValue) : Truth :=
  match kind, cell.filter fun value ↦ !value.null with
  | .isNull, some _ => .truthFalse
  | .isNull, none => .truthTrue
  | .isPresent, some _ => .truthTrue
  | .isPresent, none => .truthFalse
  | .range, some value =>
    if lower.any (value.int64 < ·) || upper.any (· ≤ value.int64) then .truthFalse else .truthTrue
  | .equals, some value | .isIn, some value =>
    if value ∈ values then .truthTrue else .truthFalse
  | _, _ => .truthUnknown

mutual

def evalFilter (columns : List ScalarColumn) (cells : List (Option ScalarValue)) : Filter → Truth
  | .mk kind children column values lower upper =>
    match kind with
    | .all => evalAll columns cells children
    | .any => evalAny columns cells children
    | .not => (evalAll columns cells children).not
    | kind =>
      leafTruth kind values lower upper
        ((columnIndexOf columns column).bind fun index ↦ (cells[index]?).join)

def evalAll (columns : List ScalarColumn) (cells : List (Option ScalarValue)) : List Filter → Truth
  | [] => .truthTrue
  | child :: rest => (evalFilter columns cells child).and (evalAll columns cells rest)

def evalAny (columns : List ScalarColumn) (cells : List (Option ScalarValue)) : List Filter → Truth
  | [] => .truthFalse
  | child :: rest => (evalFilter columns cells child).or (evalAny columns cells rest)

end

def Decides (columns : List ScalarColumn) (cells : List (Option ScalarValue)) (position : ℕ)
    (children : List Filter) (compiled : List Predicate) : Prop :=
  List.Forall₂ (fun child predicate ↦ predicate position = some (evalFilter columns cells child))
    children compiled

section

omit [Externals]

variable {columns : List ScalarColumn} {cells : List (Option ScalarValue)} {position : ℕ}
  {children : List Filter} {compiled : List Predicate}
  (hdecides : Decides columns cells position children compiled) {result : Truth}
include hdecides

/-- The loop over the children of an `and` is their conjunction, and it stops at the first false
one. -/
theorem allOf_eq (hresult : result ≠ .truthFalse) :
    allOf compiled result position = some (result.and (evalAll columns cells children)) := by
  induction hdecides generalizing result with
  | nil => cases result <;> simp_all [allOf, evalAll, Truth.and]
  | cons hchild _ ih =>
    rw [allOf, hchild, evalAll]
    cases evalFilter columns cells _ with
    | truthFalse => cases result <;> rfl
    | truthTrue =>
      rw [ih hresult]
      cases result <;> cases evalAll columns cells _ <;> rfl
    | truthUnknown =>
      rw [ih (by decide)]
      cases result with
      | truthFalse => exact absurd rfl hresult
      | truthTrue | truthUnknown => cases evalAll columns cells _ <;> rfl

/-- The loop over the children of an `or` is their disjunction, and it stops at the first true one.
-/
theorem anyOf_eq (hresult : result ≠ .truthTrue) :
    anyOf compiled result position = some (result.or (evalAny columns cells children)) := by
  induction hdecides generalizing result with
  | nil => cases result <;> simp_all [anyOf, evalAny, Truth.or]
  | cons hchild _ ih =>
    rw [anyOf, hchild, evalAny]
    cases evalFilter columns cells _ with
    | truthTrue => cases result <;> rfl
    | truthFalse =>
      rw [ih hresult]
      cases result <;> cases evalAny columns cells _ <;> rfl
    | truthUnknown =>
      rw [ih (by decide)]
      cases result with
      | truthTrue => exact absurd rfl hresult
      | truthFalse | truthUnknown => cases evalAny columns cells _ <;> rfl

end

variable {lower upper : Option Int64} {values : List ScalarValue} {kind : FilterKind}

omit [Externals] in
theorem leafDecision_eq {decide : ScalarValue → Bool → Truth}
    (hdecide : leafDecision kind values lower upper = .ok decide) (value : ScalarValue) :
    decide value false = leafTruth kind values lower upper none ∧
      decide value (!value.null) = leafTruth kind values lower upper (some value) := by
  cases kind <;> simp [leafDecision] at hdecide
  all_goals
    subst hdecide
    cases hnull : value.null <;> simp [leafTruth, Option.filter, hnull]

omit [Externals] in
theorem cells_view {memory : Memory} {position : ℕ} {entry : Entry}
    (hentry : (view memory).entries[position]? = some entry) :
    ∃ row, memory.rows[position]? = some row ∧
      entry.cells = cellValues memory.dictionaries row.cells := by
  rw [view, getElem?_zipWith_eq_some] at hentry
  obtain ⟨row, _, hrow, _, rfl⟩ := hentry
  exact ⟨row, hrow, rfl⟩

omit [Externals] in
theorem Coherent.lt_dictionaries {columns : List ScalarColumn} {memory : Memory} {index : ℕ}
    {name : Bytes} (hmemory : Coherent columns.length memory)
    (hindex : columnIndexOf columns name = some index) :
    index < memory.dictionaries.length := by
  rw [hmemory.dictionaries_length]
  obtain ⟨_, hdeclared, _⟩ := columnIndexOf_eq_some hindex
  exact (List.getElem?_eq_some_iff.mp hdeclared).1

/-- A compiled leaf decides the value that the row has in the column. -/
theorem compileLeaf_eq {columns : List ScalarColumn} {memory : Memory}
    (hmemory : Coherent columns.length memory) {position : ℕ} {entry : Entry}
    (hentry : (view memory).entries[position]? = some entry) {column : Bytes}
    {predicate : Predicate}
    (hcompile : compileLeaf columns memory kind column values lower upper = .ok predicate) :
    predicate position = some (leafTruth kind values lower upper
      ((columnIndexOf columns column).bind fun index ↦ (entry.cells[index]?).join)) := by
  obtain ⟨row, hrow, hcells⟩ := cells_view hentry
  unfold compileLeaf at hcompile
  cases hindex : columnIndexOf columns column with
  | none => simp [hindex] at hcompile
  | some index =>
    simp only [hindex] at hcompile
    cases hdecide : leafDecision kind values lower upper with
    | error => simp [hdecide] at hcompile
    | ok =>
      simp only [hdecide] at hcompile
      have hlt := hmemory.lt_dictionaries hindex
      have hfit := hmemory.cells_fit row (mem_of_getElem? hrow)
      obtain ⟨dictionary, hdictionary⟩ : ∃ dictionary, memory.dictionaries[index]? =
          some dictionary := ⟨_, getElem?_eq_getElem hlt⟩
      obtain ⟨id, hid⟩ : ∃ id, row.cells[index]? = some id :=
        ⟨_, getElem?_eq_getElem (hfit.1.symm ▸ hlt)⟩
      have hinside := hfit.2 index id dictionary hid hdictionary
      simp only [hdictionary, Except.ok.injEq] at hcompile
      subst hcompile
      simp only [hrow, Option.bind_eq_bind, Option.bind_some, hid, hcells, cellValues,
        getElem?_mapIdx, Option.map_some, Option.join_some, cellValueOf, hdictionary]
      cases id with
      | zero => rw [getElem?_cons_zero, if_pos rfl, (leafDecision_eq hdecide _).1]
      | succ =>
        have hvalue := getElem?_eq_getElem hinside
        rw [getElem?_cons_succ, getElem?_map, getElem?_tail, hvalue, Option.map_some,
          if_neg (by omega), (leafDecision_eq hdecide _).2]

mutual

/-- A compiled filter computes, at each row's position, the truth of the filter on the row's cells.
The induction is on the filter tree. -/
theorem compileFilter_eq {columns : List ScalarColumn} {memory : Memory}
    (hmemory : Coherent columns.length memory) {position : ℕ} {entry : Entry}
    (hentry : (view memory).entries[position]? = some entry) :
    ∀ (filter : Filter) {predicate : Predicate},
      compileFilter columns memory filter = .ok predicate →
      predicate position = some (evalFilter columns entry.cells filter)
  | .mk kind children column values lower upper, predicate, hcompile => by
    have hchildren {compiled : List Predicate} :=
      @compileFilters_eq columns memory hmemory position entry hentry children compiled
    cases kind with
    | all =>
      simp only [compileFilter] at hcompile
      cases hcompiled : compileFilters columns memory children with
      | error failure => simp [hcompiled] at hcompile
      | ok compiled =>
        simp only [hcompiled, Except.ok.injEq] at hcompile
        rw [← hcompile, allOf_eq (hchildren hcompiled) (by decide), evalFilter]
        cases evalAll columns entry.cells children <;> rfl
    | any =>
      simp only [compileFilter] at hcompile
      cases hcompiled : compileFilters columns memory children with
      | error failure => simp [hcompiled] at hcompile
      | ok compiled =>
        simp only [hcompiled, Except.ok.injEq] at hcompile
        rw [← hcompile, anyOf_eq (hchildren hcompiled) (by decide), evalFilter]
        cases evalAny columns entry.cells children <;> rfl
    | not =>
      simp only [compileFilter] at hcompile
      by_cases hone : children.length ≠ 1
      · simp [hone] at hcompile
      rw [if_neg hone] at hcompile
      cases hcompiled : compileFilters columns memory children with
      | error => simp [hcompiled] at hcompile
      | ok =>
        simp only [hcompiled, Except.ok.injEq] at hcompile
        have hdecides := hchildren hcompiled
        obtain ⟨child, rfl⟩ := length_eq_one_iff.mp (not_not.mp hone)
        obtain ⟨_, _, hfirst, _, rfl⟩ := forall₂_cons_left_iff.mp hdecides
        rw [← hcompile, evalFilter, evalAll, evalAll, notOf, headD_cons, hfirst]
        cases evalFilter columns entry.cells child <;> rfl
    | other => simp [compileFilter] at hcompile
    | equals | isIn | range | isNull | isPresent =>
      exact compileLeaf_eq hmemory hentry (by simpa only [compileFilter] using hcompile)

theorem compileFilters_eq {columns : List ScalarColumn} {memory : Memory}
    (hmemory : Coherent columns.length memory) {position : ℕ} {entry : Entry}
    (hentry : (view memory).entries[position]? = some entry) :
    ∀ (children : List Filter) {compiled : List Predicate},
      compileFilters columns memory children = .ok compiled →
      Decides columns entry.cells position children compiled
  | [], compiled, hcompile => by
    simp only [compileFilters, Except.ok.injEq] at hcompile
    subst hcompile
    exact .nil
  | child :: rest, compiled, hcompile => by
    rw [compileFilters] at hcompile
    cases hchild : compileFilter columns memory child with
    | error failure => simp [hchild] at hcompile
    | ok first =>
      simp only [hchild] at hcompile
      cases hrest : compileFilters columns memory rest with
      | error failure => simp [hrest] at hcompile
      | ok others =>
        simp only [hrest, Except.ok.injEq] at hcompile
        subst hcompile
        exact .cons (compileFilter_eq hmemory hentry child hchild)
          (compileFilters_eq hmemory hentry rest hrest)

end

end Clyde.CodeStore
