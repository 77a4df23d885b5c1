import AqsiosCoordinator.Coordinator.ActiveQueries

/-! # Bounds of the moving averages

A stored average near zero counts as unset, so that averaging starts again at any time.
Over exact numbers it stays among the reported values all the same.
-/
namespace AqsiosCoordinator.Coordinator
open Foundation

/-- The average of the values: the constructor's zero before the first of them, and then
between the least and the greatest. -/
structure Averages (values : List ℚ) (stored : ℚ) : Prop where
  unset : values = [] → stored = 0
  between : values ≠ [] → ∃ lo ∈ values, ∃ hi ∈ values, lo ≤ stored ∧ stored ≤ hi

theorem averages_nil : Averages [] 0 := ⟨fun _ => rfl,fun h => absurd rfl h⟩

theorem averages_singleton (v : ℚ) : Averages [v] v := by
  constructor
  · intro h
    cases h
  · exact fun _ => ⟨v,by simp,v,by simp,le_refl v,le_refl v⟩

/-- A weighted mean lies between a bound of the one value and the other value. -/
theorem mean_between {stored v lo hi : ℚ} (hlo : lo ≤ stored) (hhi : stored ≤ hi) :
    min lo v ≤ 0.8 * stored + 0.2 * v ∧ 0.8 * stored + 0.2 * v ≤ max hi v := by
  constructor
  · have h1 := min_le_left lo v
    have h2 := min_le_right lo v
    linarith
  · have h1 := le_max_left hi v
    have h2 := le_max_right hi v
    linarith

/-- One more value, whether it is averaged or starts the average. -/
theorem Averages.smoothed {values : List ℚ} {stored : ℚ} (h : Averages values stored) (v : ℚ) :
    Averages (values ++ [v]) (smoothed stored v) := by
  constructor
  · intro hnil
    simp at hnil
  intro _
  have hv : v ∈ values ++ [v] := by simp
  unfold Coordinator.smoothed
  by_cases hsmall : stored < 0.01
  · rw [if_pos hsmall]
    exact ⟨v,hv,v,hv,le_refl v,le_refl v⟩
  rw [if_neg hsmall]
  -- the initial zero is small, so there are values before this one
  have hvalues : values ≠ [] := by
    intro hnil
    rw [h.unset hnil] at hsmall
    norm_num at hsmall
  obtain ⟨lo,hlo,hi,hhi,h1,h2⟩ := h.between hvalues
  obtain ⟨h3,h4⟩ := mean_between (v := v) h1 h2
  have hmin : min lo v ∈ values ++ [v] := by
    obtain he | he := min_choice lo v <;> simp [he,hlo]
  have hmax : max hi v ∈ values ++ [v] := by
    obtain he | he := max_choice hi v <;> simp [he,hhi]
  exact ⟨_,hmin,_,hmax,h3,h4⟩

def Report.capacityOf (r : Report) (c : ℕ) : Option ℚ :=
  r.levels.bind fun l => l.capacities[c]?.map Decimal.value

def Report.usageOf (r : Report) (c : ℕ) : Option ℚ :=
  r.levels.bind fun l => l.usages[c]?.map Decimal.value

def loadsOf (queryID : ℤ) (es : List QueryEntry) : List ℚ :=
  (es.filter fun e => e.queryID.value = queryID).map fun e => e.load.value

def Report.loadsOf (r : Report) (queryID : ℤ) : List ℚ := Coordinator.loadsOf queryID (r.entries.getD [])

/-- Each of the queries has an average of the values for it, and no other query has values. -/
structure AverageLoads (values : ℤ → List ℚ) (qs : List (QueryInfo ℚ)) : Prop where
  distinct : (qs.map QueryInfo.queryID).Nodup
  listed : ∀ q ∈ qs, values q.queryID ≠ [] ∧ Averages (values q.queryID) q.queryLoad
  unlisted : ∀ queryID, queryID ∉ qs.map QueryInfo.queryID → values queryID = []

/-- Every stored level and load is an average of what the reports have said about its class or query. -/
structure NodeInfo.AveragesOf (info : NodeInfo ℚ) (reports : List Report) : Prop where
  capacities : ∀ c x, info.capacities[c]? = some x → Averages (reports.filterMap fun r => r.capacityOf c) x
  usages : ∀ c x, info.capacityUsages[c]? = some x → Averages (reports.filterMap fun r => r.usageOf c) x
  loads : AverageLoads (fun queryID => reports.flatMap fun r => r.loadsOf queryID) info.activeQueries

theorem loadsOf_cons (queryID : ℤ) (e : QueryEntry) (es : List QueryEntry) :
    loadsOf queryID (e :: es) = (if e.queryID.value = queryID then [e.load.value] else []) ++ loadsOf queryID es := by
  unfold loadsOf
  by_cases he : e.queryID.value = queryID <;> simp [he]

/-- One entry of a report. -/
theorem AverageLoads.record {values : ℤ → List ℚ} {qs : List (QueryInfo ℚ)} (h : AverageLoads values qs) (e : QueryEntry) :
    AverageLoads (fun queryID => values queryID ++ if e.queryID.value = queryID then [e.load.value] else [])
      (recordQuery e.queryID.value e.load.value qs) := by
  have hids := recordQuery_ids e.queryID.value (e.load.value : ℚ) qs
  constructor
  · exact recordQuery_nodup _ _ h.distinct
  · intro q hq
    rw [recordQuery_eq h.distinct, QueryEntry.folded] at hq
    split at hq
    · obtain ⟨p,hp,rfl⟩ := List.mem_map.mp hq
      obtain ⟨hne,hav⟩ := h.listed p hp
      by_cases he : p.queryID = e.queryID.value
      · rw [if_pos he]
        refine ⟨by simp [hne],?_⟩
        simp only [he, if_true]
        rw [he] at hav
        exact hav.smoothed _
      · rw [if_neg he, if_neg (Ne.symm he), List.append_nil]
        exact ⟨hne,hav⟩
    · rename_i hnew
      rcases List.mem_append.mp hq with hq | hq
      · have he : e.queryID.value ≠ q.queryID := fun he => hnew (he ▸ List.mem_map_of_mem hq)
        rw [if_neg he, List.append_nil]
        exact h.listed q hq
      · obtain rfl := List.mem_singleton.mp hq
        simp only [if_true, h.unlisted _ hnew, List.nil_append]
        exact ⟨by simp,averages_singleton _⟩
  · intro queryID hq
    rw [hids] at hq
    have hold : queryID ∉ qs.map QueryInfo.queryID := by
      intro hmem
      apply hq
      split
      · exact hmem
      · exact List.mem_append_left _ hmem
    have hne : e.queryID.value ≠ queryID := by
      rintro rfl
      rw [if_neg hold] at hq
      exact hq (by simp)
    rw [if_neg hne, h.unlisted queryID hold]
    rfl

theorem AverageLoads.entries {values : ℤ → List ℚ} {qs : List (QueryInfo ℚ)} (h : AverageLoads values qs) (es : List QueryEntry) :
    AverageLoads (fun queryID => values queryID ++ loadsOf queryID es) (recordEntries qs es) := by
  induction es generalizing values qs with
  | nil => simpa [loadsOf,recordEntries] using h
  | cons e es ih =>
    have hnext := ih (h.record e)
    simp only [List.append_assoc, ← loadsOf_cons] at hnext
    exact hnext

/-- The levels of one kind, over all classes. -/
theorem averages_levels {values : ℕ → List ℚ} {old : List ℚ} {ds : List Decimal} (hlen : old.length = ds.length)
    (h : ∀ c x, old[c]? = some x → Averages (values c) x) {c : ℕ} {x : ℚ}
    (hx : (List.zipWith (fun x d => aged x (Decimal.value d)) old ds)[c]? = some x) :
    ∃ d, ds[c]? = some d ∧ Averages (values c ++ [d.value]) x := by
  rw [List.getElem?_zipWith] at hx
  cases hold : old[c]? with
  | none => simp [hold] at hx
  | some y =>
    have hc : c < ds.length := by
      rw [← hlen]
      exact (List.getElem?_eq_some_iff.mp hold).1
    rw [hold, List.getElem?_eq_getElem hc] at hx
    obtain rfl := Option.some.inj hx
    refine ⟨ds[c],List.getElem?_eq_getElem hc,?_⟩
    rw [aged_eq]
    exact (h c y hold).smoothed _

/-- One report. -/
theorem NodeInfo.AveragesOf.applied {info : NodeInfo ℚ} {reports : List Report} (h : info.AveragesOf reports)
    (hinfo : info.Valid) {r : Report} (hr : r.Fits info.numberOfClasses) : (r.applied info).AveragesOf (reports ++ [r]) := by
  constructor
  · intro c x hx
    rw [List.filterMap_append]
    cases hl : r.levels with
    | none =>
      simp only [Report.applied, hl, Option.map_none, Option.getD_none] at hx
      simpa [Report.capacityOf,hl] using h.capacities c x hx
    | some l =>
      simp only [Report.applied, hl, Option.map_some, Option.getD_some, ClassLevels.applied] at hx
      obtain ⟨d,hd,hav⟩ := averages_levels (hinfo.capacities.trans (hr l hl).1.symm) h.capacities hx
      simpa [Report.capacityOf,hl,hd] using hav
  · intro c x hx
    rw [List.filterMap_append]
    cases hl : r.levels with
    | none =>
      simp only [Report.applied, hl, Option.map_none, Option.getD_none] at hx
      simpa [Report.usageOf,hl] using h.usages c x hx
    | some l =>
      simp only [Report.applied, hl, Option.map_some, Option.getD_some, ClassLevels.applied] at hx
      obtain ⟨d,hd,hav⟩ := averages_levels (hinfo.usages.trans (hr l hl).2.1.symm) h.usages hx
      simpa [Report.usageOf,hl,hd] using hav
  · have hloads : (r.applied info).activeQueries = recordEntries info.activeQueries (r.entries.getD []) := by
      unfold Report.applied
      cases r.entries <;> rfl
    rw [hloads]
    have hnext := h.loads.entries (r.entries.getD [])
    simpa [Report.loadsOf] using hnext

/-- What any number of reports make of a node that has the averages of the earlier ones. -/
theorem NodeInfo.AveragesOf.reported {info : NodeInfo ℚ} {earlier : List Report} (h : info.AveragesOf earlier)
    (hinfo : info.Valid) {reports : List Report} (hfits : ∀ r ∈ reports, r.Fits info.numberOfClasses) :
    (info.reported reports).AveragesOf (earlier ++ reports) := by
  induction reports generalizing info earlier with
  | nil => simpa [NodeInfo.reported] using h
  | cons r reports ih =>
    obtain ⟨hr,hrest⟩ := List.forall_mem_cons.mp hfits
    obtain ⟨mid,hu⟩ := update_text [] hinfo hr
    have hclasses : (r.applied info).numberOfClasses = info.numberOfClasses := by
      unfold Report.applied
      cases r.levels <;> rfl
    have hrec := ih (h.applied hinfo hr) (info.update_valid hinfo _ _ _ hu) (by rwa [hclasses])
    rw [List.append_assoc, List.singleton_append] at hrec
    exact hrec

theorem NodeInfo.new_averages (numberOfClasses : ℕ) : (NodeInfo.new numberOfClasses : NodeInfo ℚ).AveragesOf [] := by
  have hzero : ∀ (c : ℕ) (x : ℚ), (List.replicate numberOfClasses (0.0 : ℚ))[c]? = some x → Averages [] x := by
    intro c x hx
    obtain rfl : x = 0 := by
      have hmem := List.mem_of_getElem? hx
      rw [List.eq_of_mem_replicate hmem]
      norm_num
    exact averages_nil
  constructor
  · exact hzero
  · exact hzero
  · constructor
    · exact List.nodup_nil
    · intro q hq
      cases hq
    · exact fun _ _ => rfl

/-- After any well formed reports a new node stores averages of the reported values: the capacities and usages
of each class, and the load of each listed query, lie between the least and the greatest value for it. -/
theorem applyReports_averages (numberOfClasses fd : ℕ) {reports : List Report} (hfits : ∀ r ∈ reports, r.Fits numberOfClasses) :
    ∃ info, applyReports { (NodeInfo.new numberOfClasses : NodeInfo ℚ) with nodeID := fd } (reports.map Report.text) = some info ∧
      info.AveragesOf reports := by
  have hvalid : ({ (NodeInfo.new numberOfClasses : NodeInfo ℚ) with nodeID := fd }).Valid := by
    obtain ⟨h1,h2,h3,h4⟩ := NodeInfo.new_valid (D := ℚ) numberOfClasses
    exact ⟨h1,h2,h3,h4⟩
  have hnew : ({ (NodeInfo.new numberOfClasses : NodeInfo ℚ) with nodeID := fd }).AveragesOf [] := by
    obtain ⟨h1,h2,h3⟩ := NodeInfo.new_averages numberOfClasses
    exact ⟨h1,h2,h3⟩
  exact ⟨_,applyReports_text hvalid hfits,hnew.reported hvalid hfits⟩

/-- A report that is sent twice, of a class whose usage is small. -/
theorem sampleReport_between :
    ∃ info, applyReports { (NodeInfo.new 1 : NodeInfo ℚ) with nodeID := 4 } ([sampleReport,sampleReport].map Report.text) = some info ∧
      info.AveragesOf [sampleReport,sampleReport] := by
  apply applyReports_averages 1 4
  rintro r hr l hl
  rcases List.mem_pair.mp hr with rfl | rfl
  · obtain rfl := Option.some.inj hl
    exact ⟨rfl,rfl,rfl⟩
  · obtain rfl := Option.some.inj hl
    exact ⟨rfl,rfl,rfl⟩

end AqsiosCoordinator.Coordinator
