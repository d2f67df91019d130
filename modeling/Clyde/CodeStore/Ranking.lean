import Clyde.CodeStore.DocumentRuns
import Clyde.Foundation.CappedWalk
import Mathlib.Algebra.Order.BigOperators.Group.List

/-!
# Searching rows by distance

`codestore/rank.go`, and `Search` of `store.go`: the rows that a filter selects, by the distance of
their codes from a query and then by id, at most `window` of them, and at most `perGroup` with one
value in a group column. The rows are divided among workers. A worker collects candidates up to a
capacity, drops those that the walk does not keep, and from then on passes over what comes after the
last one kept. `rank_eq_best` says that the result is that of sorting all candidates and walking
once, and `search_of_reachable` is the result for a search.

Scope. `none` is a panic, which `rank` reports as an error. `processors` is `GOMAXPROCS`. The least
score is a number; scores are multiples of 1/128 and exact. The number of components of the query is
right.
-/

set_option autoImplicit false

namespace Clyde.CodeStore

open Foundation ByteCodec List CappedWalk

def rankingWorkerRows : ℕ := 4096

def selectionWindowFactor : ℕ := 2

def selectionMinimumCapacity : ℕ := 64

structure RankingWalk where
  window : ℕ
  maxDistance : ℤ
  grouped : Bool
  groupColumn : ℕ
  perGroup : ℕ

def onesCount (word : UInt64) : ℕ := (List.range 64).countP word.toNat.testBit

/-- The number of bits that differ between two codes. -/
def codeDistance (code other : Code) : ℕ :=
  ((finRange codeWords).map fun word ↦ onesCount (code word ^^^ other word)).sum

variable {memory : Memory}

variable (memory) in
structure Candidate where
  position : Fin memory.rows.length
  distance : ℕ

namespace Candidate

def row (candidate : Candidate memory) : Row := memory.rows.get candidate.position

/-- `compareCandidates` is not positive. -/
def before (left right : Candidate memory) : Prop :=
  left.distance < right.distance ∨ left.distance = right.distance ∧ left.row.id ≤ right.row.id

instance : DecidableRel (@before memory) := fun left right ↦
  inferInstanceAs (Decidable (left.distance < right.distance ∨ _))

def groupKey (column : ℕ) (candidate : Candidate memory) : Option ℕ := do
  let key ← candidate.row.cells[column]?
  if key = 0 then some 0
  else
    let dictionary ← memory.dictionaries[column]?
    let value ← dictionary.values[key]?
    some (if value.null then 0 else key)

end Candidate

/-- The walk over sorted candidates, with the room that is left and the candidates kept of each
group. -/
def walkRanking (walk : RankingWalk) :
    ℕ → (ℕ → ℕ) → List (Candidate memory) → Option (List (Candidate memory))
  | 0, _, _ => some []
  | _ + 1, _, [] => some []
  | room + 1, perGroup, ranked :: rest =>
    if walk.grouped then
      match ranked.groupKey walk.groupColumn with
      | none => none
      | some key =>
        if walk.perGroup ≤ perGroup key then walkRanking walk (room + 1) perGroup rest
        else (walkRanking walk room (Function.update perGroup key (perGroup key + 1)) rest).map
          (ranked :: ·)
    else (walkRanking walk room perGroup rest).map (ranked :: ·)

variable (memory) in
/-- The candidates of a worker. It is full when it has a threshold. -/
structure Selection where
  items : List (Candidate memory)
  threshold : Option (Candidate memory)

namespace Selection

def settle (walk : RankingWalk) (selected : Selection memory) : Option (Selection memory) :=
  let sorted := selected.items.insertionSort Candidate.before
  (walkRanking walk walk.window (fun _ ↦ 0) sorted).bind fun items ↦
    -- In an empty window there is no last candidate, and the index panics.
    if items.length = walk.window then
      items.getLast?.map fun last ↦ { items := items, threshold := some last }
    else some { selected with items := items }

def offer (walk : RankingWalk) (selected : Selection memory) (next : Candidate memory) :
    Option (Selection memory) :=
  if selected.threshold.any (Candidate.before · next) then some selected
  else if max (walk.window * selectionWindowFactor) selectionMinimumCapacity ≤
    (selected.items ++ [next]).length then
    settle walk { selected with items := selected.items ++ [next] }
  else some { selected with items := selected.items ++ [next] }

end Selection

variable (query : Code) (selects : Predicate) (walk : RankingWalk)

/-- The loop of a worker at a position. -/
def visit (best : Selection memory) (position : Fin memory.rows.length) :
    Option (Selection memory) :=
  match selects position, memory.codes[position.val]? with
  | none, _ => none
  | some .truthTrue, none => none
  | some .truthTrue, some code =>
    if walk.maxDistance < codeDistance query code then some best
    else best.offer walk ⟨position, codeDistance query code⟩
  | some _, _ => some best

def rankPart (positions : List (Fin memory.rows.length)) : Option (Selection memory) :=
  (positions.foldlM (visit query selects walk) ⟨[], none⟩).bind (Selection.settle walk)

variable (memory) in
/-- The positions that a worker visits. -/
def rowsOf (chunk worker : ℕ) : List (Fin memory.rows.length) :=
  ((finRange memory.rows.length).drop (worker * chunk)).take chunk

variable (memory) in
def rank (processors : ℕ) : Option (List (Candidate memory)) :=
  let workers := max (min processors (memory.rows.length / rankingWorkerRows)) 1
  let chunk := (memory.rows.length + workers - 1) / workers
  ((List.range workers).mapM fun worker ↦
    rankPart query selects walk (rowsOf memory chunk worker)).bind fun partials ↦
      walkRanking walk walk.window (fun _ ↦ 0)
        ((partials.flatMap Selection.items).insertionSort Candidate.before)

/-! ### The walk -/

/-- The value in the group column. An absent value and a null value are one group. -/
def groupValue (column : ℕ) (candidate : Candidate memory) : Option ScalarValue :=
  ((cellValues memory.dictionaries candidate.row.cells)[column]?).join.filter
    fun value ↦ !value.null

/-- What a walk is to keep. -/
abbrev RankingWalk.rule (walk : RankingWalk) : Rule (Candidate memory) (Option ScalarValue) where
  group := groupValue walk.groupColumn
  cap := if walk.grouped then some walk.perGroup else none
  room := walk.window
  before := Candidate.before

section

variable {query selects walk} {columns : List ScalarColumn}

instance : IsTrans (Candidate memory) Candidate.before where
  trans left middle right hleft hright := by
    rcases hleft with hleft | ⟨hleft, hid⟩ <;> rcases hright with hright | ⟨hright, hother⟩
    · exact .inl (hleft.trans hright)
    · exact .inl (hright ▸ hleft)
    · exact .inl (hleft ▸ hright)
    · exact .inr ⟨hleft.trans hright, List.le_trans hid hother⟩

instance : Std.Total (@Candidate.before memory) where
  total left right := by
    rcases lt_trichotomy left.distance right.distance with hlt | heq | hgt
    · exact .inl (.inl hlt)
    · exact (List.le_total left.row.id right.row.id).imp (fun hle ↦ .inr ⟨heq, hle⟩)
        fun hle ↦ .inr ⟨heq.symm, hle⟩
    · exact .inr (.inl hgt)

variable (hmemory : Coherent columns.length memory)
include hmemory

/-- Two candidates that are each before the other are the same row, because ids are distinct. -/
theorem antisymm_before : Std.Antisymm (@Candidate.before memory) where
  antisymm left right hleft hright := by
    rcases hleft with hleft | ⟨hdistance, hid⟩
    · rcases hright with hright | ⟨hright, _⟩ <;> omega
    · obtain ⟨_, hother⟩ := hright.resolve_left (by omega)
      have hposition : left.position = right.position := by
        have hinj :=
          inj_on_of_nodup_map hmemory.indexes.nodup (get_mem _ left.position)
            (get_mem _ right.position)
          (List.le_antisymm hid hother)
        exact (nodup_iff_injective_get.mp hmemory.indexes.nodup.of_map) hinj
      cases left
      cases right
      simp_all

variable {column : ℕ} (hcolumn : column < memory.dictionaries.length)

section

include hcolumn

/-- The key of a candidate stands for the value in its group column. -/
theorem exists_groupKey (candidate : Candidate memory) :
    ∃ key, candidate.groupKey column = some key ∧
    (key = 0 ∧ groupValue column candidate = none ∨ key ≠ 0 ∧ ∃ dictionary value,
      memory.dictionaries[column]? = some dictionary ∧ dictionary.values[key]? = some value ∧
        groupValue column candidate = some value) := by
  unfold groupValue Candidate.groupKey
  obtain ⟨id, dictionary, hid, hdictionary, ⟨rfl, hnone⟩ | ⟨hzero, value, hvalue, hsome⟩⟩ :=
    @value_of_column columns memory hmemory candidate.row (get_mem _ _) column hcolumn
  · exact ⟨0, by simp [hid], .inl ⟨rfl, by simp [hnone]⟩⟩
  · by_cases hnull : value.null
    · exact ⟨0, by simp [hid, hzero, hdictionary, hvalue, hnull], .inl ⟨rfl,
        by simp [hsome, hnull]⟩⟩
    · exact ⟨id, by simp [hid, hzero, hdictionary, hvalue, hnull],
        .inr ⟨hzero, dictionary, value, hdictionary, hvalue, by simp [hsome, hnull]⟩⟩

/-- Two candidates have one group key exactly when they have one value in the group column. -/
theorem groupKey_eq_iff {first second : Candidate memory} {key other : ℕ}
    (hfirst : first.groupKey column = some key) (hsecond : second.groupKey column = some other) :
    key = other ↔ groupValue column first = groupValue column second := by
  obtain ⟨_, hkey, hvalue⟩ := exists_groupKey hmemory hcolumn first
  obtain ⟨_, hother, hothers⟩ := exists_groupKey hmemory hcolumn second
  obtain rfl := Option.some.inj (hfirst.symm.trans hkey)
  obtain rfl := Option.some.inj (hsecond.symm.trans hother)
  rcases hvalue with ⟨rfl, hvalue⟩ | ⟨hzero, dictionary, value, hdictionary, hnumber, hvalue⟩ <;>
    rcases hothers with ⟨rfl, hothers⟩ | ⟨hnext, _, next, hsame, hnumbers,
      hothers⟩ <;> rw [hvalue, hothers]
  · simp
  · simp [Ne.symm hnext]
  · simp [hzero]
  · obtain rfl := Option.some.inj (hdictionary.symm.trans hsame)
    rw [Option.some.injEq]
    constructor
    · rintro rfl
      exact Option.some.inj (hnumber.symm.trans hnumbers)
    · rintro rfl
      -- A dictionary has a value under one number only.
      have hid := (dictionary.ids_iff value key).mpr ⟨Nat.pos_of_ne_zero hzero, hnumber⟩
      have hids := (dictionary.ids_iff value other).mpr ⟨Nat.pos_of_ne_zero hnext, hnumbers⟩
      exact Option.some.inj (hid.symm.trans hids)

end

variable (hgroup : walk.grouped = true → walk.groupColumn < memory.dictionaries.length)
include hgroup

/-- The walk over ranked candidates is the capped walk of the group rule, with the counters of the
groups as its state. -/
theorem walkRanking_eq {room : ℕ} {perGroup : ℕ → ℕ} {counts : Option ScalarValue → ℕ}
    (hcounts : walk.grouped = true → ∀ (candidate : Candidate memory) (key : ℕ),
      candidate.groupKey walk.groupColumn = some key →
      perGroup key = counts (groupValue walk.groupColumn candidate))
    (ranked : List (Candidate memory)) :
    walkRanking walk room perGroup ranked =
      some (CappedWalk.walk walk.rule room counts ranked) := by
  induction ranked generalizing room perGroup counts with
  | nil => cases room <;> rfl
  | cons first rest ih =>
    cases room with
    | zero => rfl
    | succ room =>
      rw [walkRanking]
      by_cases hgrouped : walk.grouped = true
      · obtain ⟨key, hkey, _⟩ := exists_groupKey hmemory (hgroup hgrouped) first
        have hcount := hcounts hgrouped first key hkey
        have hcap : (walk.rule : Rule (Candidate memory) _).cap = some walk.perGroup :=
          if_pos hgrouped
        rw [if_pos hgrouped, hkey]
        by_cases hfull : walk.perGroup ≤ perGroup key
        · rw [walk_cons_of_closed ⟨walk.perGroup, hcap, hcount ▸ hfull⟩, ← ih hcounts]
          simp only [if_pos hfull]
        · have hopen : ¬Closed walk.rule counts first := by
            rintro ⟨limit, hlimit, hle⟩
            obtain rfl := Option.some.inj (hcap.symm.trans hlimit)
            exact hfull (hcount ▸ hle)
          simp only [if_neg hfull]
          rw [walk_cons_of_open hopen, ih]
          · rfl
          intro _ candidate other hother
          have hsame := groupKey_eq_iff hmemory (hgroup hgrouped) hother hkey
          simp only [CappedWalk.count, Function.update_apply, hsame, hcount]
          split_ifs with hvalue
          · rfl
          · exact hcounts hgrouped candidate other hother
      · have hopen : ¬Closed walk.rule counts first := by
          rintro ⟨limit, hlimit, _⟩
          simp [hgrouped] at hlimit
        rw [if_neg hgrouped, walk_cons_of_open hopen, ih fun h ↦ absurd h hgrouped]
        rfl

theorem walkRanking_sorted (items : List (Candidate memory)) :
    walkRanking walk walk.window (fun _ ↦ 0) (items.insertionSort Candidate.before) =
      some (best walk.rule items) :=
  walkRanking_eq hmemory hgroup (fun _ _ _ _ ↦ rfl) _

/-! ### Candidates as they arrive -/

omit hmemory hgroup in
/-- The candidates stand for those that were offered, and none at or behind the threshold would be
kept. -/
structure Selection.StandsFor (walk : RankingWalk) (selected : Selection memory)
    (offered : List (Candidate memory)) : Prop where
  best_eq : best walk.rule selected.items = best walk.rule offered
  passed : ∀ threshold ∈ selected.threshold, ∀ next, threshold.before next →
    best walk.rule (next :: offered) = best walk.rule offered

variable (hwindow : 0 < walk.window) {selected : Selection memory}
  {offered : List (Candidate memory)} (hselected : selected.StandsFor walk offered)
include hwindow hselected

/-- Settling keeps the best of the offered candidates and never panics. -/
theorem settle_spec :
    ∃ settled, selected.settle walk = some settled ∧ settled.StandsFor walk offered ∧
    settled.items = best walk.rule offered := by
  have := antisymm_before hmemory
  have hitems := walkRanking_sorted hmemory hgroup selected.items
  rw [hselected.best_eq] at hitems
  rw [Selection.settle, hitems, Option.bind_some]
  split_ifs with hfull
  · obtain ⟨front, last, hlast⟩ :=
      eq_nil_or_concat' (best walk.rule offered) |>.resolve_left fun hnil ↦ by
      rw [hnil] at hfull
      exact hwindow.ne hfull
    refine ⟨⟨best walk.rule offered, some last⟩,
      by rw [hlast, getLast?_concat]; rfl, ⟨best_best, ?_⟩, rfl⟩
    rintro _ ⟨⟩ next hnext
    refine best_cons_of_full hfull fun kept hkept ↦ IsTrans.trans _ last _ ?_ hnext
    have hsorted := @pairwise_best _ _ _ walk.rule offered _ _ _
    rw [hlast] at hkept hsorted
    rcases mem_append.mp hkept with hkept | hkept
    · exact (pairwise_append.mp hsorted).2.2 kept hkept last mem_cons_self
    · rw [mem_singleton.mp hkept]
      exact .inr ⟨rfl, List.le_refl _⟩
  · exact ⟨_, rfl, ⟨best_best, hselected.passed⟩, rfl⟩

/-- A candidate is dropped behind the threshold, kept, or kept with the overflow settled; in each
case the selection stands for all that were offered. -/
theorem offer_spec (next : Candidate memory) :
    ∃ grown, selected.offer walk next = some grown ∧ grown.StandsFor walk (next :: offered) := by
  have := antisymm_before hmemory
  have hpassed : ∀ threshold ∈ selected.threshold, ∀ other, threshold.before other →
      best walk.rule (other :: next :: offered) = best walk.rule (next :: offered) :=
    fun threshold hthreshold other hother ↦
      best_cons_cons (hselected.passed threshold hthreshold other hother) next
  have hgrown : Selection.StandsFor walk
      { selected with items := selected.items ++ [next] } (next :: offered) := by
    have hnext : best walk.rule (selected.items ++ [next]) =
        best walk.rule (next :: selected.items) := best_congr_perm (perm_append_singleton next _)
    exact ⟨hnext.trans (best_cons_congr hselected.best_eq next), hpassed⟩
  unfold Selection.offer
  split_ifs with hbehind
  · obtain ⟨threshold, hthreshold, hbefore⟩ := (Option.any_eq_true _ _).mp hbehind
    exact ⟨_, rfl, hselected.best_eq.trans
      (hselected.passed threshold hthreshold next (by simpa using hbefore)).symm,
      hpassed⟩
  · obtain ⟨settled, hsettle, hstands, _⟩ := settle_spec hmemory hgroup hwindow hgrown
    exact ⟨settled, hsettle, hstands⟩
  · exact ⟨_, rfl, hgrown⟩

end

/-! ### All rows -/

def candidateAt (truth : Fin memory.rows.length → Truth) (position : Fin memory.rows.length) :
    Option (Candidate memory) :=
  memory.codes[position.val]?.bind fun code ↦
    if truth position = .truthTrue ∧ codeDistance query code ≤ walk.maxDistance then
      some ⟨position, codeDistance query code⟩
    else none

theorem flatMap_rowsOf (chunk workers : ℕ) :
    (List.range workers).flatMap (rowsOf memory chunk) = (finRange memory.rows.length).take
      (workers * chunk) := by
  induction workers with
  | zero => simp
  | succ workers ih =>
    rw [range_succ, flatMap_append, ih, flatMap_singleton, rowsOf, ← take_add, Nat.succ_mul]

section

variable {query selects walk} {columns : List ScalarColumn} {selected : Selection memory}
  {offered : List (Candidate memory)} (hmemory : Coherent columns.length memory)
  (hgroup : walk.grouped = true → walk.groupColumn < memory.dictionaries.length)
  (hwindow : 0 < walk.window) {truth : Fin memory.rows.length → Truth}
  (hselects : ∀ position, selects position.val =
    some (truth position))
include hmemory hgroup hwindow hselects

/-- Visiting a row offers its candidate if it has one. -/
theorem visit_spec (hselected : selected.StandsFor walk offered)
    (position : Fin memory.rows.length) :
    ∃ visited, visit query selects walk selected position = some visited ∧
      visited.StandsFor walk ((candidateAt query walk truth position).toList ++ offered) := by
  obtain ⟨code, hcode, _⟩ := exists_entry hmemory (getElem?_eq_getElem position.isLt)
  by_cases htrue : truth position = .truthTrue
  · by_cases hnear : codeDistance query code ≤ walk.maxDistance
    · simpa [visit, candidateAt, hselects, hcode, htrue, hnear, Int.not_lt.mpr hnear] using
        offer_spec hmemory hgroup hwindow hselected ⟨position, codeDistance query code⟩
    · simpa [visit, candidateAt, hselects, hcode, htrue, hnear, Int.not_le.mp hnear] using hselected
  · refine ⟨selected, ?_, by simpa [candidateAt, hcode, htrue] using hselected⟩
    rw [visit, hselects]
    cases htruth : truth position with
    | truthTrue => exact absurd htruth htrue
    | truthFalse | truthUnknown => rfl

/-- A worker returns the best candidates of its positions, by induction on the positions. -/
theorem rankPart_spec (positions : List (Fin memory.rows.length)) :
    ∃ settled, rankPart query selects walk positions = some settled ∧
      settled.items = best walk.rule (positions.filterMap (candidateAt query walk truth)) := by
  have := antisymm_before hmemory
  have hvisits : ∀ {selected : Selection memory} {offered : List (Candidate memory)},
      selected.StandsFor walk offered → ∃ visited,
        positions.foldlM (visit query selects walk) selected = some visited ∧ visited.StandsFor walk
          ((positions.filterMap (candidateAt query walk truth)).reverse ++ offered) := by
    induction positions with
    | nil => exact fun hselected ↦ ⟨_, rfl, hselected⟩
    | cons position positions ih =>
      intro selected offered hselected
      obtain ⟨visited, hvisit, hstands⟩ :=
        visit_spec hmemory hgroup hwindow hselects hselected position
      obtain ⟨last, hfold, hlast⟩ := ih hstands
      refine ⟨last, by rw [foldlM_cons, hvisit]; exact hfold, ?_⟩
      cases hcandidate : candidateAt query walk truth position with
      | none => simpa [filterMap_cons, hcandidate] using hlast
      | some => simpa [filterMap_cons, hcandidate] using hlast
  obtain ⟨visited, hfold, hstands⟩ :=
    hvisits (⟨rfl, by simp⟩ : (⟨[], none⟩ : Selection memory).StandsFor walk [])
  obtain ⟨settled, hsettle, _, hitems⟩ := settle_spec hmemory hgroup hwindow hstands
  refine ⟨settled, by rw [rankPart, hfold]; exact hsettle, hitems.trans (best_congr_perm ?_)⟩
  rw [append_nil]
  exact reverse_perm _

/-- The workers, their capacities and their thresholds make no difference. -/
theorem rank_eq_best (processors : ℕ) : rank memory query selects walk processors =
    some (best walk.rule ((finRange memory.rows.length).filterMap
      (candidateAt query walk truth))) := by
  have := antisymm_before hmemory
  choose settled hsettled hitems using
    @rankPart_spec memory query selects walk columns hmemory hgroup hwindow truth hselects
  have hrows (workers : ℕ) (hworkers : 0 < workers) :
      memory.rows.length ≤ workers * ((memory.rows.length + workers - 1) / workers) := by
    have hdivision := Nat.div_add_mod (memory.rows.length + workers - 1) workers
    have hremainder := Nat.mod_lt (memory.rows.length + workers - 1) hworkers
    omega
  simp only [rank, hsettled]
  generalize hworkers : max (min processors (memory.rows.length / rankingWorkerRows)) 1 = workers
  have hchunks := hrows workers (by omega)
  generalize (memory.rows.length + workers - 1) / workers = chunk at hchunks ⊢
  have hmerged := @best_flatMap_best _ _ _ walk.rule _ _ _ _ _ (List.range workers) fun worker ↦
    (rowsOf memory chunk worker).filterMap (candidateAt query walk truth)
  rw [← filterMap_flatMap, flatMap_rowsOf, take_of_length_le (by rwa [length_finRange])] at hmerged
  have hparts := @mapM_pure Option _ _ _ _ (List.range workers) fun worker ↦
    settled (rowsOf memory chunk worker)
  refine (congrArg (Option.bind · _) hparts).trans ((walkRanking_sorted hmemory hgroup _).trans ?_)
  simp only [flatMap_map, hitems, hmerged]

end

/-! ### A search -/

def score (distance : ℕ) : ℚ := 1 - 2 * distance / dimensions

def maxDistanceFor (minScore : ℚ) : ℤ :=
  (List.range (dimensions + 1)).findIdx (fun distance ↦ decide (score distance < minScore)) - 1

structure SearchRequest where
  query : Code
  filter : Option Filter
  groupBy : Bytes
  perGroupLimit : ℤ
  limit : ℤ
  minScore : ℚ
  names : List Bytes

def defaultSearchLimit : ℕ := 10

variable (request : SearchRequest) (stored : CodeCollection)

def SearchRequest.rankingWalk : RankingWalk :=
  let column :=
    if request.groupBy ≠ [] ∧ 0 < request.perGroupLimit then
      stored.columnIndex request.groupBy else none
  { window := if request.limit ≤ 0 then defaultSearchLimit else request.limit.toNat
    maxDistance := maxDistanceFor request.minScore
    grouped := column.isSome
    groupColumn := column.getD 0
    perGroup := request.perGroupLimit.toNat }

def SearchRequest.truthAt (position : Fin stored.memory.rows.length) : Truth :=
  match request.filter with
  | none => .truthTrue
  | some tree => evalFilter stored.header.columns
      (cellValues stored.memory.dictionaries (stored.memory.rows.get position).cells) tree

/-- The row at a position as a candidate, if the filter selects it and its score is not too low. -/
def SearchRequest.candidateAt (position : Fin stored.memory.rows.length) :
    Option (Candidate stored.memory) :=
  stored.memory.codes[position.val]?.bind fun code ↦
    if request.truthAt stored position = .truthTrue ∧
      request.minScore ≤ score (codeDistance request.query code) then
      some ⟨position, codeDistance request.query code⟩
    else none

/-- What a search is to find: all candidates, sorted and walked once. -/
def SearchRequest.ranking : List (Candidate stored.memory) :=
  best (request.rankingWalk stored).rule
    ((finRange stored.memory.rows.length).filterMap (request.candidateAt stored))

variable (read : Bytes → Bool) (disk : Disk) (processors : ℕ)

/-- The hits of ranked rows with their scores, up to the first that cannot be read. -/
def hitsOf (ranked : List (Candidate stored.memory)) : Except Failure (List (Hit × ℚ)) :=
  (readHits read (disk.files.contents stored.dataFile) stored.header.columns
    stored.memory request.names
    (ranked.map fun candidate ↦ candidate.position.val)).map fun hits ↦
      hits.zip (ranked.map fun candidate ↦ score candidate.distance)

def search [Externals] : Except Failure (List (Hit × ℚ)) :=
  match compileOptional stored.header.columns stored.memory request.filter with
  | .error failure => .error failure
  | .ok selects =>
    match rank stored.memory request.query selects (request.rankingWalk stored) processors with
    | none => .error .panic
    | some ranked => hitsOf request stored read disk ranked

section

variable {request stored}

theorem codeDistance_le (code other : Code) : codeDistance code other ≤ dimensions := by
  have hwords :=
    sum_le_card_nsmul ((finRange codeWords).map fun word ↦ onesCount (code word ^^^ other word)) 64
    fun count hcount ↦ by
      obtain ⟨word, _, rfl⟩ := mem_map.mp hcount
      exact countP_le_length.trans (by simp)
  simpa [codeDistance, codeWords, dimensions] using hwords

theorem score_le_score {distance other : ℕ} (hle : distance ≤ other) :
    score other ≤ score distance := by
  unfold score
  gcongr

theorem le_maxDistanceFor_iff {distance : ℕ} (hle : distance ≤ dimensions) (minScore : ℚ) :
    (distance : ℤ) ≤ maxDistanceFor minScore ↔ minScore ≤ score distance := by
  have hlength : distance < (List.range (dimensions + 1)).length := by
    rw [length_range]
    omega
  rw [maxDistanceFor, Int.le_sub_one_iff, Nat.cast_lt, lt_findIdx_iff]
  simp only [getElem_range, decide_eq_false_iff_not, not_lt]
  constructor
  · rintro ⟨_, hall⟩
    exact hall distance le_rfl
  · exact fun hscore ↦ ⟨hlength, fun other hother ↦ hscore.trans (score_le_score hother)⟩

theorem candidateAt_rankingWalk :
    candidateAt request.query (request.rankingWalk stored) (request.truthAt stored) =
      request.candidateAt stored := by
  funext position
  simp only [candidateAt, SearchRequest.candidateAt, SearchRequest.rankingWalk,
    le_maxDistanceFor_iff (codeDistance_le _ _)]

theorem groupColumn_lt (hgrouped : (request.rankingWalk stored).grouped) :
    (request.rankingWalk stored).groupColumn < stored.width := by
  obtain ⟨column, hcolumn⟩ := Option.isSome_iff_exists.mp hgrouped
  simp only [SearchRequest.rankingWalk, hcolumn, Option.getD_some]
  split_ifs at hcolumn
  obtain ⟨_, hdeclared, _⟩ := columnIndexOf_eq_some hcolumn
  exact (List.getElem?_eq_some_iff.mp hdeclared).1

theorem window_pos : 0 < (request.rankingWalk stored).window := by
  simp only [SearchRequest.rankingWalk, defaultSearchLimit]
  split_ifs <;> omega

/-- In every run of any handles' sections, whatever fails, a search with a filter over the declared
columns finds of the rows that the filter selects and that score high enough the best ones, by
distance and then by id, that fit the limit and the limit of their group. Assumes: no handle is open
at the start. -/
theorem search_of_reachable [Externals] {ι : Type} [DecidableEq ι] {start world : World ι}
    (hstart : ∀ name, start.handles name = none)
    (hreachable : Reachable (fun _ _ _ ↦ True) start world) {name : ι}
    (hstored : world.handles name = some stored)
    (hdeclared : ∀ tree ∈ request.filter, tree.Declared stored.header.columns) :
    search request stored read disk processors = hitsOf request stored read disk
      (request.ranking stored) := by
  have hmemory : Coherent stored.width stored.memory :=
    hreachable.inRange hstart name stored hstored
  obtain ⟨selects, hcompile⟩ : ∃ selects,
      compileOptional stored.header.columns stored.memory request.filter = .ok selects := by
    cases hfilter : request.filter with
    | none => exact ⟨_, rfl⟩
    | some tree => exact compileFilter_ok hmemory tree (hdeclared tree hfilter)
  have hrank :=
    @rank_eq_best stored.memory request.query selects
      (request.rankingWalk stored) stored.header.columns
    hmemory (hmemory.dictionaries_length ▸ groupColumn_lt) window_pos
      (request.truthAt stored) ?_ processors
  · rw [candidateAt_rankingWalk] at hrank
    rw [search, hcompile]
    simp only [hrank, SearchRequest.ranking]
  intro position
  unfold SearchRequest.truthAt
  cases hfilter : request.filter with
  | none =>
    rw [hfilter] at hcompile
    obtain rfl := Except.ok.inj hcompile
    rfl
  | some tree =>
    rw [hfilter] at hcompile
    obtain ⟨_, _, hentry⟩ := exists_entry hmemory (getElem?_eq_getElem position.isLt)
    exact compileFilter_eq hmemory hentry tree hcompile

end

def sampleSearch : SearchRequest := ⟨fun _ ↦ 0, some sampleFilter, [0x61], 1, 5, 0, []⟩

theorem search_of_reachable_sample :
    ∃ stored, (@World.step sampleExternals Bool _ sharedWorld false sampleWrite).handles false =
      some stored ∧
      ∀ read disk processors, @search sampleSearch stored read disk processors sampleExternals =
        hitsOf sampleSearch stored read disk (sampleSearch.ranking stored) := by
  let _ := sampleExternals
  obtain ⟨stored, hstored⟩ := Option.isSome_iff_exists.mp (by decide +kernel :
    ((sharedWorld.step false sampleWrite).handles false).isSome)
  have hcolumns : (((sharedWorld.step false sampleWrite).handles false).map fun stored ↦
      stored.header.columns) = some sampleColumns := by decide +kernel
  rw [hstored, Option.map_some, Option.some.injEq] at hcolumns
  refine ⟨stored, hstored, fun read disk processors ↦
    search_of_reachable read disk processors (fun _ ↦ rfl)
    (.step (.step (.step .refl true _ trivial) false _ trivial) false _ trivial) hstored ?_⟩
  rintro _ ⟨⟩
  rw [hcolumns]
  simp only [sampleFilter, Filter.Declared, FiltersDeclared]
  decide

end Clyde.CodeStore
