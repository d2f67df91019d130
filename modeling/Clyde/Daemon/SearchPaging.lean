import Mathlib.Data.List.Infix

/-!
# Paging through a ranked search

`engineSearchMatches` (`internal/daemon/search_engine_hits.go`) asks an engine for the first hits of
a ranking, drops those whose conversation is hidden, missing or archived, and skips the offset. A
short page is asked for again with a larger engine limit. A caller follows `NextOffset`
(`semanticSearchResult`, `internal/daemon/search_paging.go`) while there is more.

Scope. The ranking and the index stay the same over the calls, and no call fails. A local index and
a workspace without conversations are left out. A match is its record and its hit. Accounting,
facets and freshness are left out.
-/

set_option autoImplicit false

namespace Clyde.Daemon.SearchPaging

open List

variable {Hit Record : Type}

/-! ### The code -/

/-- What stays the same from page to page: the ranking, the records of the index, and the options
other than the offset. -/
structure Search (Hit Record : Type) where
  ranking : List Hit
  recordByID : Hit → Option Record
  archived : Record → Bool
  includeArchived : Bool
  limit : ℤ
  fromUnix : Option ℤ
  untilUnix : Option ℤ

/-- One resolved page, how many hits were dropped, whether the engine filled its limit, and whether
the page ended too early. -/
structure EngineSearchPage (Hit Record : Type) where
  found : List (Record × Hit)
  withheld : ℕ
  truncated : Bool
  short : Bool

def defaultSearchLimit : ℕ := 20

def maxSearchLimit : ℕ := 50

def maxInt32Value : ℕ := 2147483647

def searchOverfetchAttempts : ℕ := 3

def searchOverfetchFactor : ℕ := 4

def searchSkippedOverfetchSteps : ℕ := 1

/-- The engine ranks this many rows for a query. -/
def maxEngineOverfetchLimit : ℕ := 16384

def normalizedPagingOffset (rawOffset : ℤ) : ℕ :=
  if rawOffset < 0 then 0
  else if maxInt32Value < rawOffset then maxInt32Value
  else rawOffset.toNat

def normalizedSearchLimit (rawLimit : ℤ) : ℕ :=
  if rawLimit ≤ 0 then defaultSearchLimit
  else if maxSearchLimit < rawLimit then maxSearchLimit
  else rawLimit.toNat

/-- The limit of a page, its offset, and the first engine limit. -/
def semanticSearchPageBounds (rawLimit rawOffset : ℤ) : Except String (ℕ × ℕ × ℕ) :=
  let limit := normalizedSearchLimit rawLimit
  let offset := normalizedPagingOffset rawOffset
  let searchLimit := limit + offset
  if maxInt32Value < offset ∨ maxInt32Value < searchLimit ∨ searchLimit < limit then
    .error "offset too large"
  else .ok (limit, offset, searchLimit)

def EngineSearchPage.needsMoreHeadroom (page : EngineSearchPage Hit Record) (limit : ℕ) : Bool :=
  if limit ≤ 0 ∨ limit ≤ page.found.length then false
  else decide (0 < page.withheld) && page.truncated

def nextEngineOverfetchLimit (engineLimit : ℕ) : ℕ :=
  if maxEngineOverfetchLimit ≤ engineLimit then engineLimit
  else
    let grown := engineLimit * searchOverfetchFactor
    if maxEngineOverfetchLimit < grown ∨ grown < engineLimit then maxEngineOverfetchLimit else grown

/-- The limit grows up to the maximum, and stays only there. -/
theorem nextEngineOverfetchLimit_spec (engineLimit : ℕ) :
    engineLimit ≤ nextEngineOverfetchLimit engineLimit ∧
      (nextEngineOverfetchLimit engineLimit ≠ engineLimit →
        nextEngineOverfetchLimit engineLimit ≤ maxEngineOverfetchLimit) ∧
      (0 < engineLimit → nextEngineOverfetchLimit engineLimit = engineLimit →
        maxEngineOverfetchLimit ≤ engineLimit) := by
  generalize hnext : nextEngineOverfetchLimit engineLimit = next
  unfold nextEngineOverfetchLimit searchOverfetchFactor at hnext
  dsimp only at hnext
  split_ifs at hnext <;> omega

theorem normalizedPagingOffset_cast {offset : ℕ} (hoffset : offset ≤ maxInt32Value) :
    normalizedPagingOffset offset = offset := by
  unfold normalizedPagingOffset
  split_ifs <;> omega

structure SearchConversationsResult (Hit Record : Type) where
  found : List (Record × Hit)
  nextOffset : ℕ
  hasMore : Bool

namespace Search

variable (search : Search Hit Record)

/-- The match of a hit, unless its conversation is not in the index, or is archived and not asked
for. -/
def resolve (hit : Hit) : Option (Record × Hit) :=
  match search.recordByID hit with
  | none => none
  | some record =>
    if search.archived record ∧ ¬search.includeArchived then none else some (record, hit)

/-- The hits one after the other, until the page is full; `seen` counts the served ones. -/
def resolveLoop (limit offset : ℕ) :
    List Hit → ℕ → EngineSearchPage Hit Record → EngineSearchPage Hit Record
  | [], _, page => page
  | hit :: hits, seen, page =>
    match search.resolve hit with
    | none => resolveLoop limit offset hits seen { page with withheld := page.withheld + 1 }
    | some matched =>
      if seen < offset then resolveLoop limit offset hits (seen + 1) page
      else
        let grown := { page with found := page.found ++ [matched] }
        if 0 < limit ∧ limit ≤ grown.found.length then grown
        else resolveLoop limit offset hits (seen + 1) grown

def resolveEngineHits (hits : List Hit) (limit offset engineLimit : ℕ) :
    EngineSearchPage Hit Record :=
  search.resolveLoop limit offset hits 0
    { found := [], withheld := 0, truncated := engineLimit ≤ hits.length, short := false }

/-- Asks the engine with growing limits. Returns the last page and its engine limit. -/
def searchLoop (limit offset attempt engineLimit : ℕ) : EngineSearchPage Hit Record × ℕ :=
  let page := search.resolveEngineHits (search.ranking.take engineLimit) limit offset engineLimit
  let nextLimit := nextEngineOverfetchLimit engineLimit
  let attemptsSpent := searchOverfetchAttempts ≤ attempt ∧ 0 < page.found.length
  if ¬page.needsMoreHeadroom limit ∨ attemptsSpent ∨
    nextLimit = engineLimit then (page, engineLimit)
  else searchLoop limit offset (attempt + 1) nextLimit
termination_by maxEngineOverfetchLimit - engineLimit
decreasing_by
  have hnext := nextEngineOverfetchLimit_spec engineLimit
  omega

def engineSearchMatches (rawOffset : ℤ) : Except String (EngineSearchPage Hit Record) :=
  match semanticSearchPageBounds search.limit rawOffset with
  | .error text => .error text
  | .ok (limit, offset, searchLimit) =>
    let hasDateBound := search.fromUnix.isSome || search.untilUnix.isSome
    let (firstAttempt, engineLimit) :=
      if hasDateBound then (1, searchLimit)
      else (searchSkippedOverfetchSteps + 1, nextEngineOverfetchLimit searchLimit)
    let (page, engineLimit) := search.searchLoop limit offset firstAttempt engineLimit
    if ¬page.needsMoreHeadroom limit ∨ maxEngineOverfetchLimit ≤ engineLimit then .ok page
    else .ok { page with short := true }

def semanticSearchResult (rawOffset : ℤ) : Except String (SearchConversationsResult Hit Record) :=
  let limit := normalizedSearchLimit search.limit
  let offset := normalizedPagingOffset rawOffset
  (search.engineSearchMatches rawOffset).map fun page ↦
    { found := page.found
      nextOffset := offset + page.found.length
      hasMore := 0 < page.found.length ∧ (limit ≤ page.found.length ∨ page.short) }

/-! ### One page -/

def served (hits : List Hit) : List (Record × Hit) := hits.filterMap search.resolve

/-- The served matches that the engine can rank. -/
def window : List (Record × Hit) := search.served (search.ranking.take maxEngineOverfetchLimit)

variable {search} {limit offset : ℕ}

theorem served_take (count : ℕ) (hits : List Hit) :
    search.served (hits.take count) <+: search.served hits :=
  List.IsPrefix.filterMap _ <| take_prefix count hits

/-- The loop takes the served matches behind the offset, up to the limit; if there are too few, it
has consumed all hits. -/
theorem resolveLoop_spec (hits : List Hit) (seen : ℕ) (page : EngineSearchPage Hit Record)
    (hroom : page.found.length < limit) :
    let after := search.resolveLoop limit offset hits seen page
    after.found = page.found ++ ((search.served hits).drop (offset - seen)).take
      (limit - page.found.length) ∧ after.truncated = page.truncated ∧ after.short = page.short ∧
      (after.found.length < limit →
        after.withheld + (search.served hits).length = page.withheld + hits.length) := by
  induction hits generalizing seen page with
  | nil => simp [resolveLoop, served]
  | cons hit hits ih =>
    simp only [resolveLoop, served, filterMap_cons]
    cases hresolve : search.resolve hit with
    | none =>
      obtain ⟨hfound, htruncated, hshort, hall⟩ :=
        ih seen { page with withheld := page.withheld + 1 } hroom
      refine ⟨hfound, htruncated, hshort, fun hlt ↦ (hall hlt).trans ?_⟩
      exact Nat.add_right_comm ..
    | some matched =>
      dsimp only
      split_ifs with hskip hfull
      · obtain ⟨hfound, htruncated, hshort, hall⟩ := ih (seen + 1) page hroom
        have hdrop : offset - seen = offset - (seen + 1) + 1 := by omega
        refine ⟨?_, htruncated, hshort, fun hlt ↦ congrArg (· + 1) (hall hlt)⟩
        rw [hfound, hdrop]
        rfl
      · have hlast : limit - page.found.length = 1 := by
          rw [length_append, length_singleton] at hfull
          omega
        rw [Nat.sub_eq_zero_of_le (not_lt.mp hskip), hlast]
        exact ⟨rfl, rfl, rfl, fun hlt ↦ absurd hlt (not_lt.mpr hfull.2)⟩
      · have hmore : (page.found ++ [matched]).length < limit := by
          rw [not_and, not_le] at hfull
          exact hfull (by omega)
        obtain ⟨hfound, htruncated, hshort, hall⟩ := ih (seen + 1)
          { page with found := page.found ++ [matched] } hmore
        have hskipped : offset - seen = 0 ∧ offset - (seen + 1) = 0 := by omega
        have htake : limit - page.found.length = limit - (page.found ++ [matched]).length + 1 := by
          rw [length_append, length_singleton] at hmore ⊢
          omega
        refine ⟨?_, htruncated, hshort, fun hlt ↦ congrArg (· + 1) (hall hlt)⟩
        rw [hfound, hskipped.1, hskipped.2, htake]
        simp [served]

/-- One engine call yields the served matches behind the offset, up to the limit. If it is not full
and needs no more headroom, the call has seen the whole ranking. -/
theorem resolveEngineHits_spec {engineLimit : ℕ} (hlimit : 0 < limit)
    (hwide : limit + offset ≤ engineLimit) :
    let hits := search.ranking.take engineLimit
    let page := search.resolveEngineHits hits limit offset engineLimit
    page.found = ((search.served hits).drop offset).take limit ∧ page.short = false ∧
      (page.found.length < limit → ¬page.needsMoreHeadroom limit →
        search.ranking.length ≤ engineLimit) := by
  intro hits
  obtain ⟨hfound, htruncated, hshort, hall⟩ := @resolveLoop_spec _ _ search limit offset hits 0
    { found := [], withheld := 0, truncated := engineLimit ≤ hits.length, short := false }
    hlimit
  unfold resolveEngineHits
  generalize search.resolveLoop limit offset hits 0 _ = page at hfound htruncated hshort hall ⊢
  refine ⟨hfound, hshort, fun hlt hends ↦ ?_⟩
  by_contra hmore
  have hlength : hits.length = engineLimit := by
    rw [length_take]
    omega
  have hwithheld : page.withheld = 0 := by
    simpa [EngineSearchPage.needsMoreHeadroom, hlt, hlimit.ne', htruncated, hlength] using hends
  have hfull := congrArg length hfound
  rw [nil_append, length_take, length_drop] at hfull
  have hcount := hall hlt
  simp only [length_nil] at hcount hfull
  omega

/-- The last page comes from an engine limit that is at least the first one. If it could still grow,
the page has what it needs or is not empty. -/
theorem searchLoop_spec (search : Search Hit Record) (limit offset attempt engineLimit : ℕ) :
    ∃ last page, search.searchLoop limit offset attempt engineLimit = (page, last) ∧
      page = search.resolveEngineHits (search.ranking.take last) limit offset last ∧
      engineLimit ≤ last ∧
      (¬page.needsMoreHeadroom limit ∨ 0 < page.found.length ∨
        nextEngineOverfetchLimit last = last) := by
  fun_induction searchLoop search limit offset attempt engineLimit with
  | case1 attempt engineLimit page nextLimit attemptsSpent hends =>
    refine ⟨engineLimit, _, rfl, rfl, le_rfl, ?_⟩
    exact hends.imp_right (Or.imp_left And.right)
  | case2 attempt engineLimit page nextLimit attemptsSpent _ ih =>
    obtain ⟨last, page, hloop, hpage, hle, hends⟩ := ih
    exact ⟨last, page, hloop, hpage, (nextEngineOverfetchLimit_spec engineLimit).1.trans hle, hends⟩

theorem window_le_of_done {last : ℕ} {page : EngineSearchPage Hit Record}
    (hfound : page.found = ((search.served (search.ranking.take last)).drop offset).take limit)
    (hlt : page.found.length < limit)
    (hdone : search.ranking.length ≤ last ∨ maxEngineOverfetchLimit ≤ last) :
    search.window.length ≤ offset + page.found.length := by
  have hshown : (search.served (search.ranking.take last)).length ≤ offset + page.found.length := by
    rw [hfound, length_take, length_drop] at hlt ⊢
    omega
  refine (IsPrefix.length_le ?_).trans hshown
  rcases hdone with hall | hwhole
  · rw [take_of_length_le hall]
    exact served_take _ _
  · exact (take_prefix_take_left hwhole).filterMap _

/-- What a page at an offset says about the served matches. -/
structure PageSpec (search : Search Hit Record) (offset : ℕ)
    (result : SearchConversationsResult Hit Record) : Prop where
  found : result.found <+: (search.served search.ranking).drop offset
  nextOffset : normalizedPagingOffset result.nextOffset = offset + result.found.length
  pos_of_more : result.hasMore → 0 < result.found.length
  window_of_last : ¬result.hasMore → search.window.length ≤ offset + result.found.length

/-- A page is a part of the served ranking, and one that is not short but not full has reached the
window's end. -/
theorem engineSearchMatches_spec {rawOffset : ℤ}
    (hbounds : semanticSearchPageBounds search.limit rawOffset =
      .ok (limit, offset, limit + offset)) (hlimit : 0 < limit) :
    ∃ page, search.engineSearchMatches rawOffset = .ok page ∧
      page.found <+: (search.served search.ranking).drop offset ∧ page.found.length ≤ limit ∧
      (page.short → 0 < page.found.length) ∧
      (¬page.short → page.found.length < limit →
        search.window.length ≤ offset + page.found.length) := by
  unfold engineSearchMatches
  rw [hbounds]
  dsimp only
  generalize hstart : (if (search.fromUnix.isSome || search.untilUnix.isSome) = true then
    (1, limit + offset) else (searchSkippedOverfetchSteps + 1,
      nextEngineOverfetchLimit (limit + offset))) = start
  have hfirst : limit + offset ≤ start.2 := by
    rw [← hstart]
    split_ifs
    · exact le_rfl
    · exact (nextEngineOverfetchLimit_spec _).1
  obtain ⟨last, page, hloop, hpage, hle, hends⟩ :=
    search.searchLoop_spec limit offset start.1 start.2
  obtain ⟨hfound, hshort, hcomplete⟩ := @resolveEngineHits_spec _ _ search limit offset last hlimit
    (hfirst.trans hle)
  rw [← hpage] at hfound hshort hcomplete
  have hbehind : page.found <+: (search.served search.ranking).drop offset := by
    rw [hfound]
    have hfront := take_prefix limit ((search.served (search.ranking.take last)).drop offset)
    exact hfront.trans ((served_take last _).drop offset)
  have hsize : page.found.length ≤ limit := by
    rw [hfound]
    exact length_take_le _ _
  rw [hloop]
  split_ifs with hdone
  · refine ⟨page, rfl, hbehind, hsize, by simp [hshort], fun _ hlt ↦ ?_⟩
    exact window_le_of_done hfound hlt (hdone.imp_left (hcomplete hlt))
  · rw [not_or] at hdone
    refine ⟨_, rfl, hbehind, hsize, fun _ ↦ ?_, fun hlong ↦ absurd rfl hlong⟩
    rcases hends with henough | hrows | hgrown
    · exact absurd henough hdone.1
    · exact hrows
    · exact absurd ((nextEngineOverfetchLimit_spec last).2.2 (by omega) hgrown) hdone.2

/-- A request gives a page that meets the specification, or fails because its offset is past the
maximum. -/
theorem semanticSearchResult_spec (search : Search Hit Record) (rawOffset : ℤ) :
    (∃ result, search.semanticSearchResult rawOffset = .ok result ∧
        PageSpec search (normalizedPagingOffset rawOffset) result) ∨
      (∃ text, search.semanticSearchResult rawOffset = .error text) ∧
        maxEngineOverfetchLimit ≤ normalizedPagingOffset rawOffset := by
  have hlimit : 0 < normalizedSearchLimit search.limit ∧
      normalizedSearchLimit search.limit ≤ 50 := by
    unfold normalizedSearchLimit defaultSearchLimit maxSearchLimit
    split_ifs <;> omega
  unfold semanticSearchResult
  by_cases hinside : normalizedSearchLimit search.limit +
    normalizedPagingOffset rawOffset ≤ maxInt32Value
  · left
    obtain ⟨page, hpage, hfound, hsize, hshort, hwindow⟩ :=
      @engineSearchMatches_spec _ _ search _ _ rawOffset (if_neg (by omega)) hlimit.1
    rw [hpage]
    refine ⟨_, rfl, hfound, normalizedPagingOffset_cast
      ((Nat.add_le_add_left hsize _).trans (by omega)),
      fun hmore ↦ (of_decide_eq_true hmore).1, fun hlast ↦ ?_⟩
    replace hlast := mt decide_eq_true hlast
    have hlong : ¬page.short := fun hearly ↦ hlast ⟨hshort hearly, .inr hearly⟩
    exact hwindow hlong (not_le.mp fun hfull ↦ hlast ⟨hlimit.1.trans_le hfull, .inl hfull⟩)
  · right
    have hbounds : semanticSearchPageBounds search.limit rawOffset = .error "offset too large" :=
      if_pos (by omega)
    unfold maxInt32Value at hinside
    unfold maxEngineOverfetchLimit
    refine ⟨⟨"offset too large", ?_⟩, by omega⟩
    rw [engineSearchMatches, hbounds]
    rfl

/-! ### Following the pages -/

variable {result : SearchConversationsResult Hit Record}

theorem pageSpec_of_ok {rawOffset : ℤ}
    (hresult : search.semanticSearchResult rawOffset = .ok result) :
    PageSpec search (normalizedPagingOffset rawOffset) result := by
  obtain ⟨other, hother, hspec⟩ | ⟨⟨text, herror⟩, -⟩ := search.semanticSearchResult_spec rawOffset
  · cases hresult.symm.trans hother
    exact hspec
  · cases hresult.symm.trans herror

theorem PageSpec.advances (hspec : PageSpec search offset result) (hmore : result.hasMore) :
    search.ranking.length - normalizedPagingOffset result.nextOffset <
      search.ranking.length - offset := by
  have hlength := hspec.found.length_le
  rw [length_drop] at hlength
  have hserved : (search.served search.ranking).length ≤ search.ranking.length :=
    length_filterMap_le _ _
  have hpos := hspec.pos_of_more hmore
  rw [hspec.nextOffset]
  omega

/-- The pages a caller gets that follows the next offset while there is more. -/
def followPages (search : Search Hit Record) (rawOffset : ℤ) : List (List (Record × Hit)) :=
  match hresult : search.semanticSearchResult rawOffset with
  | .error _ => []
  | .ok result =>
    if hmore : result.hasMore then
      have := (pageSpec_of_ok hresult).advances hmore
      result.found :: followPages search result.nextOffset
    else [result.found]
termination_by search.ranking.length - normalizedPagingOffset rawOffset

/-- Following the pages to the end yields every served match of the window, in order and once. -/
theorem followPages_flatten (search : Search Hit Record) (rawOffset : ℤ) :
    ∃ count, (search.followPages rawOffset).flatten =
        ((search.served search.ranking).drop (normalizedPagingOffset rawOffset)).take count ∧
      search.window.length ≤ normalizedPagingOffset rawOffset + count := by
  fun_induction followPages search rawOffset with
  | case1 rawOffset text hresult =>
    obtain ⟨result, hok, -⟩ | ⟨-, hbeyond⟩ := search.semanticSearchResult_spec rawOffset
    · cases hresult.symm.trans hok
    · refine ⟨0, rfl, ?_⟩
      exact (length_filterMap_le _ _).trans ((length_take_le _ _).trans hbeyond)
  | case2 rawOffset result hresult hmore _ ih =>
    obtain ⟨count, hrest, hwindow⟩ := ih
    have hspec := pageSpec_of_ok hresult
    rw [hspec.nextOffset] at hrest hwindow
    refine ⟨result.found.length + count, ?_, by omega⟩
    rw [flatten_cons, hrest, take_add, drop_drop, ← prefix_iff_eq_take.mp hspec.found]
  | case3 rawOffset result hresult hlast =>
    have hspec := pageSpec_of_ok hresult
    refine ⟨result.found.length, ?_, hspec.window_of_last hlast⟩
    rw [flatten_singleton, ← prefix_iff_eq_take.mp hspec.found]

/-- From the first page on, a caller gets every served match of the window, and further served
matches behind it, in rank order and each once. -/
theorem followPages_served (search : Search Hit Record) :
    search.window <+: (search.followPages 0).flatten ∧
      (search.followPages 0).flatten <+: search.served search.ranking := by
  obtain ⟨count, hpages, hwindow⟩ := search.followPages_flatten 0
  have hzero : normalizedPagingOffset 0 = 0 := rfl
  rw [hzero, Nat.zero_add] at hwindow
  rw [hpages]
  constructor
  · exact prefix_take_iff.mpr ⟨served_take _ _, hwindow⟩
  · exact take_prefix count _

end Search

end Clyde.Daemon.SearchPaging
