import AqsiosCoordinator.Coordinator.LoadReports
import AqsiosCoordinator.Coordinator.ReportFraming

/-! # The active queries of a node

A report adds the queries it lists to the active ones and takes none away.
-/
namespace AqsiosCoordinator.Coordinator
open Foundation Foundation.Reader
variable {D : Type} [Double D] {info : NodeInfo D} {r : Report} {reports : List Report}

def Report.listed (r : Report) : Option (List ℤ) := r.entries.map fun es => es.map fun e => e.queryID.value

def NodeInfo.activeIDs {D : Type} (info : NodeInfo D) : List ℤ := info.activeQueries.map QueryInfo.queryID

/-- The active queries are those of the list, and a migration away from the node names no others. -/
def NodeInfo.Follows (info : NodeInfo D) (ids : List ℤ) : Prop :=
  (∀ q, q ∈ info.activeIDs ↔ q ∈ ids) ∧
  ∀ (m : LoadManager D) getNodeAddress destination, m.migrationEnds = some (some (info,destination)) →
    ∃ named : List ℤ, m.redistributeLoad getNodeAddress = some [(info.nodeID,
      migrationMessage (getNodeAddress destination.nodeID) destination.listeningPort named)] ∧ named ⊆ ids

/-- After every report that lists queries the node follows it. -/
def FollowsReports (info : NodeInfo D) (reports : List Report) : Prop :=
  ∀ (sent : List Report) (last : Report) (ids : List ℤ), sent ++ [last] <+: reports → last.listed = some ids →
    ∃ info', applyReports info ((sent ++ [last]).map Report.text) = some info' ∧ info'.Follows ids

/-- No list of queries leaves out what an earlier one has. -/
def NoneLeave (reports : List Report) : Prop :=
  ∀ (sent : List Report) (last : Report) (ids : List ℤ), sent ++ [last] <+: reports → last.listed = some ids →
    ∀ r ∈ sent, ∀ earlier : List ℤ, r.listed = some earlier → earlier ⊆ ids

theorem follows_iff {ids : List ℤ} : info.Follows ids ↔ ∀ q, q ∈ info.activeIDs ↔ q ∈ ids := by
  constructor
  · exact fun h => h.1
  · intro h
    refine ⟨h,?_⟩
    intro m getNodeAddress destination hends
    refine ⟨info.activeIDs,?_,fun q hq => (h q).mp hq⟩
    unfold LoadManager.redistributeLoad
    rw [hends]
    rfl

theorem mem_recordEntries (qs : List (QueryInfo D)) (es : List QueryEntry) (q : ℤ) :
    q ∈ (recordEntries qs es).map QueryInfo.queryID ↔
      q ∈ qs.map QueryInfo.queryID ∨ q ∈ es.map fun e => e.queryID.value := by
  induction es generalizing qs with
  | nil => simp [recordEntries]
  | cons e es ih =>
    have hrec := ih (recordQuery e.queryID.value e.load.value qs)
    have hids : q ∈ (recordQuery e.queryID.value (e.load.value : D) qs).map QueryInfo.queryID ↔
        q ∈ qs.map QueryInfo.queryID ∨ q = e.queryID.value := by
      rw [recordQuery_ids]
      split
      · rename_i hmem
        constructor
        · exact .inl
        · rintro (h | rfl)
          · exact h
          · exact hmem
      · simp
    unfold recordEntries at hrec ⊢
    rw [List.foldl_cons, hrec, hids, List.map_cons, List.mem_cons, or_assoc]

theorem mem_applied (r : Report) (info : NodeInfo D) (q : ℤ) :
    q ∈ (r.applied info).activeIDs ↔ q ∈ info.activeIDs ∨ ∃ ids, r.listed = some ids ∧ q ∈ ids := by
  unfold NodeInfo.activeIDs Report.applied Report.listed
  cases hentries : r.entries with
  | none => simp
  | some es => simpa using mem_recordEntries info.activeQueries es q

def NodeInfo.reported (info : NodeInfo D) (reports : List Report) : NodeInfo D :=
  reports.foldl (fun info r => r.applied info) info

/-- What the reports of a node make of its entry. -/
theorem applyReports_text [ExactInts D] (hinfo : info.Valid) (hfits : ∀ r ∈ reports, r.Fits info.numberOfClasses) :
    applyReports info (reports.map Report.text) = some (info.reported reports) := by
  induction reports generalizing info with
  | nil => rfl
  | cons r reports ih =>
    obtain ⟨hr,hrest⟩ := List.forall_mem_cons.mp hfits
    obtain ⟨mid,hu⟩ := update_text [] hinfo hr
    have hclasses : (r.applied info).numberOfClasses = info.numberOfClasses := by
      unfold Report.applied
      cases r.levels <;> rfl
    have hrec := @ih (r.applied info) (info.update_valid hinfo _ _ _ hu) (by rwa [hclasses])
    rw [List.map_cons, applyReports, hu]
    exact hrec

theorem mem_reported (q : ℤ) :
    q ∈ (info.reported reports).activeIDs ↔
      q ∈ info.activeIDs ∨ ∃ r ∈ reports, ∃ ids, r.listed = some ids ∧ q ∈ ids := by
  induction reports generalizing info with
  | nil => simp [NodeInfo.reported]
  | cons r reports ih =>
    rw [NodeInfo.reported, List.foldl_cons, ← NodeInfo.reported, ih, mem_applied, or_assoc, List.exists_mem_cons_iff]

/-- A node that starts without queries follows all its reports exactly if none of them leaves out
a query of an earlier one. -/
theorem followsReports_iff [ExactInts D] (numberOfClasses fd : ℕ) (hfits : ∀ r ∈ reports, r.Fits numberOfClasses) :
    FollowsReports { (NodeInfo.new numberOfClasses : NodeInfo D) with nodeID := fd } reports ↔ NoneLeave reports := by
  have hvalid : ({ (NodeInfo.new numberOfClasses : NodeInfo D) with nodeID := fd }).Valid := by
    obtain ⟨h1,h2,h3,h4⟩ := NodeInfo.new_valid (D := D) numberOfClasses
    exact ⟨h1,h2,h3,h4⟩
  have happlied (sent : List Report) (last : Report) (hp : sent ++ [last] <+: reports) :=
    @applyReports_text D _ _ (sent ++ [last]) _ hvalid fun r hr => hfits r (hp.subset hr)
  have hids (sent : List Report) (last : Report) (ids : List ℤ) (hlast : last.listed = some ids) (q : ℤ) :
      q ∈ ({ (NodeInfo.new numberOfClasses : NodeInfo D) with nodeID := fd }.reported (sent ++ [last])).activeIDs ↔
        (∃ r ∈ sent, ∃ earlier, r.listed = some earlier ∧ q ∈ earlier) ∨ q ∈ ids := by
    rw [mem_reported]
    simp [NodeInfo.activeIDs,NodeInfo.new,or_and_right,exists_or,hlast]
  constructor
  · intro h sent last ids hp hlast r hr earlier hearlier q hq
    obtain ⟨info',hinfo',hfollows⟩ := h sent last ids hp hlast
    rw [happlied sent last hp] at hinfo'
    obtain rfl := Option.some.inj hinfo'
    exact (hfollows.1 q).mp ((hids sent last ids hlast q).mpr (.inl ⟨r,hr,earlier,hearlier,hq⟩))
  · intro h sent last ids hp hlast
    refine ⟨_,happlied sent last hp,follows_iff.mpr ?_⟩
    intro q
    rw [hids sent last ids hlast q]
    constructor
    · rintro (⟨r,hr,earlier,hearlier,hq⟩ | hq)
      · exact h sent last ids hp hlast r hr earlier hearlier hq
      · exact hq
    · exact .inr

def sampleQuery : Report := .queries [sampleEntry]

theorem sampleQuery_fits (n : ℕ) : sampleQuery.Fits n := by
  rintro l hl
  cases hl

theorem sampleQuery_again : FollowsReports { (NodeInfo.new 1 : NodeInfo ℚ) with nodeID := 4 } [sampleQuery,sampleQuery] := by
  have hall : ∀ r ∈ [sampleQuery,sampleQuery], r = sampleQuery := by simp
  apply (followsReports_iff 1 4 fun r hr => hall r hr ▸ sampleQuery_fits 1).mpr
  intro sent last ids hp hlast r hr earlier hearlier
  have hmem := hp.subset
  rw [hall last (hmem (by simp))] at hlast
  rw [hall r (hmem (by simp [hr])), hlast] at hearlier
  obtain rfl := Option.some.inj hearlier
  exact List.Subset.refl _

/-- A query that a node no longer reports stays among its active ones. -/
theorem sampleQuery_gone :
    ¬ FollowsReports { (NodeInfo.new 1 : NodeInfo ℚ) with nodeID := 4 } [sampleQuery,.queries []] := by
  intro h
  obtain ⟨info',hinfo',hfollows⟩ := h [sampleQuery] (.queries []) [] (List.prefix_refl _) rfl
  have hvalid : ({ (NodeInfo.new 1 : NodeInfo ℚ) with nodeID := 4 }).Valid := by
    obtain ⟨h1,h2,h3,h4⟩ := NodeInfo.new_valid (D := ℚ) 1
    exact ⟨h1,h2,h3,h4⟩
  have hfits : ∀ r ∈ [sampleQuery,.queries []], r.Fits 1 := by
    rintro r hr l hl
    rcases List.mem_pair.mp hr with rfl | rfl
    · cases hl
    · cases hl
  have happlied := applyReports_text hvalid hfits
  rw [List.singleton_append, happlied] at hinfo'
  obtain rfl := Option.some.inj hinfo'
  have hmem := (hfollows.1 2).mp ((mem_reported 2).mpr (.inr ⟨sampleQuery,by simp,[2],rfl,by simp⟩))
  cases hmem

end AqsiosCoordinator.Coordinator
