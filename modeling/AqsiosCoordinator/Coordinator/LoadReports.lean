import AqsiosCoordinator.Coordinator.Numerals
import AqsiosCoordinator.Coordinator.Redistribution

/-! # Reports of a node

The text of the reports that a node sends, and what `update` makes of them.
-/
namespace AqsiosCoordinator.Coordinator
open Foundation Foundation.Reader

structure ClassLevels where
  capacities : List Decimal
  usages : List Decimal
  priorities : List Decimal

structure QueryEntry where
  queryID : Integer
  load : Decimal

def numbersText (ds : List Decimal) : List Char := ds.flatMap fun d => d.text ++ [',']

def ClassLevels.text (l : ClassLevels) : List Char :=
  numbersText l.capacities ++ (numbersText l.usages ++ numbersText l.priorities)

def ClassLevels.Fits (n : ℕ) (l : ClassLevels) : Prop :=
  l.capacities.length = n ∧ l.usages.length = n ∧ l.priorities.length = n

def QueryEntry.text (e : QueryEntry) : List Char := e.queryID.text ++ ',' :: (e.load.text ++ [','])

def entriesText (es : List QueryEntry) : List Char := es.flatMap QueryEntry.text ++ ['E']

/-- The reports: all levels and queries, the levels of the classes, the queries, the port. -/
inductive Report where
  | all (levels : ClassLevels) (entries : List QueryEntry)
  | classes (levels : ClassLevels)
  | queries (entries : List QueryEntry)
  | port (number : Integer)

namespace Report

def text : Report → List Char
  | all levels entries => 'N' :: 'I' :: ',' :: '0' :: ',' :: (levels.text ++ entriesText entries)
  | classes levels => 'N' :: 'I' :: ',' :: '1' :: ',' :: levels.text
  | queries entries => 'N' :: 'I' :: ',' :: '2' :: ',' :: entriesText entries
  | port number => 'P' :: ',' :: number.text

def levels : Report → Option ClassLevels
  | all levels _ => some levels
  | classes levels => some levels
  | _ => none

def entries : Report → Option (List QueryEntry)
  | all _ entries => some entries
  | queries entries => some entries
  | _ => none

def number : Report → Option Integer
  | port number => some number
  | _ => none

def Fits (n : ℕ) (r : Report) : Prop := ∀ l, r.levels = some l → l.Fits n

end Report

class ExactInts (D : Type) [Double D] : Prop where
  toInt_value : ∀ i : Integer, Double.toInt (i.decimal.value : D) = some i.value

instance : ExactInts ℚ where
  toInt_value := by
    intro i
    have hfits : -2^31 ≤ i.value ∧ i.value < 2^31 := i.fits
    have hvalue : (i.decimal.value : ℚ) = i.value := by
      simp only [Decimal.value, Double.ofNumeral, Decimal.numeral, Integer.decimal, Integer.value]
      split
      · simp
      · simp
    have hround : (if (i.value : ℚ) < 0 then ⌈(i.value : ℚ)⌉ else ⌊(i.value : ℚ)⌋) = i.value := by
      rw [Int.ceil_intCast, Int.floor_intCast, ite_self]
    simp only [Double.toInt, hvalue, hround]
    rw [if_pos hfits]

structure NodeInfo.Valid {D : Type} (info : NodeInfo D) : Prop where
  capacities : info.capacities.length = info.numberOfClasses
  usages : info.capacityUsages.length = info.numberOfClasses
  priorities : info.localPriorities.length = info.numberOfClasses
  distinct : (info.activeQueries.map QueryInfo.queryID).Nodup

section Reading
variable {D : Type} [Double D] {rest : List Char}

theorem ends_comma : Ends ',' := .inl rfl
theorem ends_nul : Ends NUL := .inr rfl

theorem readClasses_text (rest : List Char) (store : D → D → D) (ds : List Decimal) (old : List D) (h : old.length = ds.length) :
    readClasses store ds.length old (numbersText ds ++ rest) =
      some (List.zipWith (fun x d => store x (Decimal.value d)) old ds,rest) := by
  induction ds generalizing old with
  | nil =>
    obtain rfl := List.length_eq_zero_iff.mp h
    rfl
  | cons d ds ih =>
    obtain ⟨x,old,rfl⟩ := List.exists_cons_of_length_eq_add_one h
    have htext : numbersText (d :: ds) ++ rest = d.text ++ ',' :: (numbersText ds ++ rest) := by
      simp [numbersText]
    rw [htext, List.length_cons, readClasses, bind_of_eq (d.strtod_text ends_comma), bind_of_eq skip_cons,
      bind_of_eq (ih old (by simpa using h))]
    rfl

/-- An integer is not mistaken for the end of the entries. -/
theorem Integer.not_end (i : Integer) : (startsWith ['E',NUL] : Msg Bool) (i.text ++ rest) = some (false,i.text ++ rest) := by
  obtain ⟨d,ds,hds⟩ := List.exists_cons_of_ne_nil i.digits_ne
  have hd : d ≠ 'E' := by
    intro he
    have hdigit := i.digits_all d (by simp [hds])
    rw [he] at hdigit
    exact absurd hdigit (by decide)
  have hne : ∃ x tail, i.text ++ rest = x :: tail ∧ x ≠ 'E' := by
    unfold text
    cases i.sign with
    | none => exact ⟨d,ds ++ rest,by simp [Sign.text,hds],hd⟩
    | plus => exact ⟨'+',_,rfl,by decide⟩
    | minus => exact ⟨'-',_,rfl,by decide⟩
  obtain ⟨x,tail,htext,hx⟩ := hne
  rw [htext]
  unfold startsWith matchesList
  rw [if_neg hx]
  rfl

def recordEntries (qs : List (QueryInfo D)) (es : List QueryEntry) : List (QueryInfo D) :=
  es.foldl (fun qs e => recordQuery e.queryID.value e.load.value qs) qs

theorem readQueries_text (rest : List Char) (es : List QueryEntry) {turns : ℕ} (h : es.length < turns) (qs : List (QueryInfo D)) :
    readQueries turns qs (entriesText es ++ NUL :: rest) = some (recordEntries qs es,'E' :: NUL :: rest) := by
  induction es generalizing turns qs with
  | nil =>
    obtain ⟨turns,rfl⟩ := Nat.exists_eq_succ_of_ne_zero (by omega : turns ≠ 0)
    rfl
  | cons e es ih =>
    obtain ⟨turns,rfl⟩ := Nat.exists_eq_succ_of_ne_zero (by omega : turns ≠ 0)
    have htext : entriesText (e :: es) ++ NUL :: rest =
        e.queryID.text ++ ',' :: (e.load.text ++ ',' :: (entriesText es ++ NUL :: rest)) := by
      simp [entriesText,QueryEntry.text]
    rw [htext, readQueries, bind_of_eq e.queryID.not_end, if_neg (by decide),
      bind_of_eq (e.queryID.strtol_text ends_comma), bind_of_eq skip_cons,
      bind_of_eq (e.load.strtod_text ends_comma), bind_of_eq skip_cons, e.queryID.bmod_value]
    exact ih (by simpa using h) _

theorem length_entries (es : List QueryEntry) : es.length ≤ (entriesText es).length := by
  induction es with
  | nil => simp
  | cons e es ih =>
    simp only [entriesText, List.flatMap_cons, QueryEntry.text, List.length_append, List.length_cons] at ih ⊢
    omega

end Reading

section Update
variable {D : Type} [Double D] {info : NodeInfo D}

def ClassLevels.applied (l : ClassLevels) (info : NodeInfo D) : NodeInfo D :=
  { info with
    capacities := List.zipWith (fun x d => aged x (Decimal.value d)) info.capacities l.capacities
    capacityUsages := List.zipWith (fun x d => aged x (Decimal.value d)) info.capacityUsages l.usages
    localPriorities := List.zipWith (fun _ d => Decimal.value d) info.localPriorities l.priorities }

def Report.applied (r : Report) (info : NodeInfo D) : NodeInfo D :=
  let leveled := (r.levels.map fun l => l.applied info).getD info
  let listed : NodeInfo D :=
    { leveled with activeQueries := (r.entries.map fun es => recordEntries info.activeQueries es).getD info.activeQueries }
  { listed with listeningPort := (r.number.map Integer.value).getD info.listeningPort }

theorem updateClasses_text (rest : List Char) {t : ℤ} {l : ClassLevels} (ht : t = 0 ∨ t = 1) (hinfo : info.Valid)
    (hl : l.Fits info.numberOfClasses) : info.updateClasses t (l.text ++ rest) = some (l.applied info,rest) := by
  obtain ⟨h1,h2,h3⟩ := hl
  have hc := readClasses_text (numbersText l.usages ++ (numbersText l.priorities ++ rest)) aged l.capacities
    info.capacities (hinfo.capacities.trans h1.symm)
  have hu := readClasses_text (numbersText l.priorities ++ rest) aged l.usages
    info.capacityUsages (hinfo.usages.trans h2.symm)
  have hp := readClasses_text rest (fun _ v => v) l.priorities
    info.localPriorities (hinfo.priorities.trans h3.symm)
  rw [h1] at hc
  rw [h2] at hu
  rw [h3] at hp
  have htext : l.text ++ rest =
      numbersText l.capacities ++ (numbersText l.usages ++ (numbersText l.priorities ++ rest)) := by
    simp [ClassLevels.text]
  unfold NodeInfo.updateClasses
  rw [htext, if_pos ht, bind_of_eq hc, bind_of_eq hu, bind_of_eq hp]
  rfl

theorem updateQueries_text (rest : List Char) (info : NodeInfo D) {t : ℤ} (ht : t = 0 ∨ t = 2) (es : List QueryEntry) :
    info.updateQueries t (entriesText es ++ NUL :: rest) =
      some ({ info with activeQueries := recordEntries info.activeQueries es },'E' :: NUL :: rest) := by
  have hlen := length_entries es
  have hturns : es.length < (entriesText es ++ NUL :: rest).length + 1 := by
    rw [List.length_append]
    omega
  have hread := readQueries_text rest es hturns info.activeQueries
  unfold NodeInfo.updateQueries
  rw [if_pos ht, bind_of_eq (rfl : remaining (entriesText es ++ NUL :: rest) = some (_,_)), bind_of_eq hread]
  rfl

/-- The head of a load report, up to the comma behind its type. -/
theorem updateLoadInfo_head [ExactInts D] (i : Integer) (text : List Char) :
    info.updateLoadInfo ('N' :: 'I' :: ',' :: (i.text ++ ',' :: text)) =
      (do let info ← info.updateClasses i.value; let info ← info.updateQueries i.value; pure (0,info) : Msg (ℤ × NodeInfo D)) text := by
  have hhead : skipHeader ('N' :: 'I' :: ',' :: (i.text ++ ',' :: text)) = some ((),i.text ++ ',' :: text) := rfl
  have hnum : (strtod : Msg D) (i.text ++ ',' :: text) = some (i.decimal.value,',' :: text) := by
    rw [← i.decimal_text]
    exact i.decimal.strtod_text ends_comma
  unfold NodeInfo.updateLoadInfo
  rw [bind_of_eq hhead, bind_of_eq hnum, ExactInts.toInt_value]
  rfl

def reportType (t : Fin 3) : Integer where
  sign := .none
  digits := [Nat.digitChar t]
  digits_ne := List.cons_ne_nil _ _
  digits_all := by
    apply List.all_eq_true.mp
    revert t
    decide
  fits := by
    revert t
    decide

theorem reportType_value (t : Fin 3) : (reportType t).value = t := by
  revert t
  decide

variable [ExactInts D] {r : Report}

theorem updateLoadInfo_text (rest : List Char) (hinfo : info.Valid) (hr : r.Fits info.numberOfClasses) (hload : r.number = none) :
    ∃ mid, info.updateLoadInfo (r.text ++ NUL :: rest) = some ((0,r.applied info),mid) := by
  cases r with
  | all l es =>
    have hc := updateClasses_text (entriesText es ++ NUL :: rest) (.inl (reportType_value 0)) hinfo (hr l rfl)
    have hq := updateQueries_text rest (l.applied info) (.inl (reportType_value 0)) es
    have htext : (Report.all l es).text ++ NUL :: rest =
        'N' :: 'I' :: ',' :: ((reportType 0).text ++ ',' :: (l.text ++ (entriesText es ++ NUL :: rest))) := by
      simp [Report.text,reportType,Integer.text,Sign.text]
    rw [htext, updateLoadInfo_head, bind_of_eq hc, bind_of_eq hq]
    exact ⟨_,rfl⟩
  | classes l =>
    have hc := updateClasses_text (NUL :: rest) (.inr (reportType_value 1)) hinfo (hr l rfl)
    have htext : (Report.classes l).text ++ NUL :: rest =
        'N' :: 'I' :: ',' :: ((reportType 1).text ++ ',' :: (l.text ++ NUL :: rest)) := by
      simp [Report.text,reportType,Integer.text,Sign.text]
    rw [htext, updateLoadInfo_head, bind_of_eq hc]
    exact ⟨_,rfl⟩
  | queries es =>
    have hq := updateQueries_text rest info (.inr (reportType_value 2)) es
    have htext : (Report.queries es).text ++ NUL :: rest =
        'N' :: 'I' :: ',' :: ((reportType 2).text ++ ',' :: (entriesText es ++ NUL :: rest)) := by
      simp [Report.text,reportType,Integer.text,Sign.text]
    have hc : info.updateClasses (reportType 2).value (entriesText es ++ NUL :: rest) =
        some (info,entriesText es ++ NUL :: rest) := rfl
    rw [htext, updateLoadInfo_head, bind_of_eq hc, bind_of_eq hq]
    exact ⟨_,rfl⟩
  | port i => cases hload

theorem updateListeningPortNo_text (rest : List Char) (i : Integer) :
    info.updateListeningPortNo ((Report.port i).text ++ NUL :: rest) =
      some ((0,(Report.port i).applied info),NUL :: rest) := by
  have hhead : skipHeader ((Report.port i).text ++ NUL :: rest) = some ((),i.text ++ NUL :: rest) := rfl
  have hnum : (strtod : Msg D) (i.text ++ NUL :: rest) = some (i.decimal.value,NUL :: rest) := by
    rw [← i.decimal_text]
    exact i.decimal.strtod_text ends_nul
  unfold NodeInfo.updateListeningPortNo
  rw [bind_of_eq hhead, bind_of_eq hnum, ExactInts.toInt_value]
  rfl

/-- A report that fits is read to its end. -/
theorem update_text (rest : List Char) (hinfo : info.Valid) (hr : r.Fits info.numberOfClasses) :
    ∃ mid, info.update (r.text ++ NUL :: rest) = some ((0,r.applied info),mid) := by
  cases hn : r.number with
  | none =>
    obtain ⟨mid,hmid⟩ := updateLoadInfo_text rest hinfo hr hn
    have hhead : (startsWith ['N','I'] : Msg Bool) (r.text ++ NUL :: rest) = some (true,r.text ++ NUL :: rest) := by
      cases r with
      | port i => cases hn
      | _ => rfl
    unfold NodeInfo.update
    rw [bind_of_eq hhead, if_pos rfl]
    exact ⟨mid,hmid⟩
  | some i =>
    obtain rfl : r = .port i := by
      cases r with
      | port j =>
        obtain rfl := Option.some.inj hn
        rfl
      | _ => cases hn
    refine ⟨NUL :: rest,?_⟩
    exact updateListeningPortNo_text rest i

end Update

section Valid
variable {D : Type}

theorem NodeInfo.new_valid [Double D] (n : ℕ) : (NodeInfo.new n : NodeInfo D).Valid := by
  constructor <;> simp [NodeInfo.new]

variable [Double D]

theorem yields_readClasses (store : D → D → D) (k : ℕ) (old : List D) :
    Yields (readClasses store k old) fun l => l.length = old.length := by
  induction k generalizing old with
  | zero => exact yields_pure rfl
  | succ k ih =>
    cases old with
    | nil => exact yields_undefined _
    | cons x old =>
      apply yields_bind
      intro v
      apply yields_bind
      intro _
      exact (ih old).bind fun l hl => yields_pure (by simp [hl])

theorem recordQuery_ids (queryID : ℤ) (load : D) (qs : List (QueryInfo D)) :
    (recordQuery queryID load qs).map QueryInfo.queryID =
      if queryID ∈ qs.map QueryInfo.queryID then qs.map QueryInfo.queryID else qs.map QueryInfo.queryID ++ [queryID] := by
  induction qs with
  | nil => simp [recordQuery]
  | cons q qs ih =>
    unfold recordQuery
    by_cases hq : q.queryID = queryID
    · simp [hq]
    · rw [if_neg hq, List.map_cons, ih]
      by_cases hmem : queryID ∈ qs.map QueryInfo.queryID
      · rw [if_pos hmem, List.map_cons, if_pos (List.mem_cons_of_mem _ hmem)]
      · rw [if_neg hmem, List.map_cons, if_neg]
        · rfl
        · rintro hcons
          rcases List.mem_cons.mp hcons with h | h
          · exact hq h.symm
          · exact hmem h

theorem recordQuery_nodup (queryID : ℤ) (load : D) {qs : List (QueryInfo D)} (h : (qs.map QueryInfo.queryID).Nodup) :
    ((recordQuery queryID load qs).map QueryInfo.queryID).Nodup := by
  rw [recordQuery_ids]
  split
  · exact h
  · rename_i hmem
    rw [List.nodup_append]
    refine ⟨h,by simp,?_⟩
    rintro a ha b hb rfl
    exact hmem (List.mem_singleton.mp hb ▸ ha)

theorem yields_readQueries (turns : ℕ) {qs : List (QueryInfo D)} (h : (qs.map QueryInfo.queryID).Nodup) :
    Yields (readQueries turns qs) fun l => (l.map QueryInfo.queryID).Nodup := by
  induction turns generalizing qs with
  | zero => exact yields_undefined _
  | succ turns ih =>
    apply yields_bind
    intro b
    apply Yields.ite
    · exact yields_pure h
    exact yields_bind fun queryID => yields_bind fun _ => yields_bind fun load => yields_bind fun _ =>
      ih (recordQuery_nodup _ _ h)

theorem NodeInfo.updateClasses_valid {info : NodeInfo D} (t : ℤ) (h : info.Valid) :
    Yields (info.updateClasses t) fun r => r.Valid := by
  apply Yields.ite
  · exact (yields_readClasses _ _ _).bind fun cs hc => (yields_readClasses _ _ _).bind fun us hu =>
      (yields_readClasses _ _ _).bind fun ps hp => 
        yields_pure ⟨hc.trans h.capacities,hu.trans h.usages,hp.trans h.priorities,h.distinct⟩
  · exact yields_pure h

theorem NodeInfo.updateQueries_valid {info : NodeInfo D} (t : ℤ) (h : info.Valid) :
    Yields (info.updateQueries t) fun r => r.Valid := by
  apply Yields.ite
  · apply yields_bind
    intro turns
    exact (yields_readQueries _ h.distinct).bind fun qs hqs => yields_pure ⟨h.capacities,h.usages,h.priorities,hqs⟩
  · exact yields_pure h

theorem NodeInfo.updateLoadInfo_valid {info : NodeInfo D} (h : info.Valid) :
    Yields info.updateLoadInfo fun r => r.2.Valid :=
  yields_bind fun _ => yields_bind fun _ => yields_bind fun t => yields_bind fun _ =>
    (updateClasses_valid t h).bind fun _ hi => (updateQueries_valid t hi).bind fun _ hj => yields_pure hj

/-- Whatever a node sends, its entry stays valid. -/
theorem NodeInfo.update_valid {info : NodeInfo D} (h : info.Valid) : Yields info.update fun r => r.2.Valid := by
  have hport : Yields info.updateListeningPortNo fun r => r.2.Valid :=
    yields_bind fun _ => yields_bind fun _ => yields_bind fun _ =>
      yields_pure ⟨h.capacities,h.usages,h.priorities,h.distinct⟩
  exact yields_bind fun _ => Yields.ite (updateLoadInfo_valid h)
    (yields_bind fun _ => Yields.ite hport (yields_pure h))

end Valid

section Averages

def smoothed (old new : ℚ) : ℚ := if old < 0.01 then new else 0.8 * old + 0.2 * new

def QueryEntry.folded (qs : List (QueryInfo ℚ)) (e : QueryEntry) : List (QueryInfo ℚ) :=
  if e.queryID.value ∈ qs.map QueryInfo.queryID then
    qs.map fun q => if q.queryID = e.queryID.value then { q with queryLoad := smoothed q.queryLoad e.load.value } else q
  else qs ++ [⟨e.queryID.value,e.load.value⟩]

theorem aged_eq (old new : ℚ) : aged old new = smoothed old new := by
  have h : (1.0 - agingFactor : ℚ) = 0.8 := by norm_num [agingFactor]
  unfold aged smoothed
  rw [h, mul_comm old]
  by_cases hold : old < 0.01
  · rw [if_pos hold, if_pos (by simpa [Double.lt] using hold)]
  · rw [if_neg hold, if_neg (by simpa [Double.lt] using hold)]
    rfl

theorem recordQuery_eq {qs : List (QueryInfo ℚ)} (h : (qs.map QueryInfo.queryID).Nodup) (e : QueryEntry) :
    recordQuery e.queryID.value e.load.value qs = e.folded qs := by
  induction qs with
  | nil => rfl
  | cons q qs ih =>
    obtain ⟨hq,hnd⟩ := List.nodup_cons.mp h
    unfold recordQuery QueryEntry.folded
    by_cases he : q.queryID = e.queryID.value
    · rw [he] at hq
      have hrest : ∀ x ∈ qs, x.queryID ≠ e.queryID.value := fun x hx hxe => hq (List.mem_map.mpr ⟨x,hx,hxe⟩)
      rw [if_pos he, if_pos (by simp [he]), List.map_cons, if_pos he, aged_eq]
      congr 1
      rw [← List.map_id qs, List.map_map]
      apply List.map_congr_left
      intro x hx
      simp [hrest x hx]
    · rw [if_neg he, ih hnd]
      unfold QueryEntry.folded
      by_cases hmem : e.queryID.value ∈ qs.map QueryInfo.queryID
      · rw [if_pos hmem, if_pos (by simp at hmem ⊢; exact .inr hmem), List.map_cons, if_neg he]
      · have hne : e.queryID.value ∉ (q :: qs).map QueryInfo.queryID := by
          rw [List.map_cons, List.mem_cons]
          rintro (h | h)
          · exact he h.symm
          · exact hmem h
        rw [if_neg hmem, if_neg hne]
        rfl

theorem recordEntries_eq {qs : List (QueryInfo ℚ)} (h : (qs.map QueryInfo.queryID).Nodup) (es : List QueryEntry) :
    recordEntries qs es = es.foldl QueryEntry.folded qs := by
  induction es generalizing qs with
  | nil => rfl
  | cons e es ih =>
    have hrec := ih (recordQuery_nodup e.queryID.value e.load.value h)
    rw [recordQuery_eq h] at hrec
    unfold recordEntries at hrec ⊢
    rw [List.foldl_cons, recordQuery_eq h]
    exact hrec

theorem zipWith_aged (old : List ℚ) (ds : List Decimal) :
    List.zipWith (fun x d => aged x (Decimal.value d)) old ds = List.zipWith smoothed old (ds.map Decimal.value) := by
  rw [List.zipWith_map_right]
  congr 1
  funext x d
  exact aged_eq x d.value

theorem zipWith_value (old : List ℚ) (ds : List Decimal) (h : old.length = ds.length) :
    List.zipWith (fun _ d => Decimal.value d) old ds = (ds.map Decimal.value : List ℚ) := by
  induction ds generalizing old with
  | nil => simp
  | cons d ds ih =>
    obtain ⟨x,old,rfl⟩ := List.exists_cons_of_length_eq_add_one h
    rw [List.zipWith_cons_cons, ih old (by simpa using h), List.map_cons]

/-- A load report is read to its end. Levels and loads become moving averages, priorities are taken over,
new queries are added, and nothing else changes. -/
theorem updateLoadInfo_averages {info : NodeInfo ℚ} (hinfo : info.Valid) {r : Report} (hr : r.Fits info.numberOfClasses)
    (hload : r.number = none) (rest : List Char) :
    ∃ info' mid, info.updateLoadInfo (r.text ++ NUL :: rest) = some ((0,info'),mid) ∧ info'.Valid ∧
      info' = { info with
        capacities := (r.levels.map fun l => List.zipWith smoothed info.capacities (l.capacities.map Decimal.value)).getD
          info.capacities
        capacityUsages := (r.levels.map fun l => List.zipWith smoothed info.capacityUsages (l.usages.map Decimal.value)).getD
          info.capacityUsages
        localPriorities := (r.levels.map fun l => l.priorities.map Decimal.value).getD info.localPriorities
        activeQueries := (r.entries.getD []).foldl QueryEntry.folded info.activeQueries } := by
  obtain ⟨mid,hmid⟩ := updateLoadInfo_text rest hinfo hr hload
  refine ⟨_,mid,hmid,info.updateLoadInfo_valid hinfo _ _ _ hmid,?_⟩
  have hentries (es : List QueryEntry) := recordEntries_eq hinfo.distinct es
  have hpriorities (l : ClassLevels) (hl : l.Fits info.numberOfClasses) :=
    zipWith_value info.localPriorities l.priorities (hinfo.priorities.trans hl.2.2.symm)
  unfold Report.applied ClassLevels.applied
  cases r with
  | all l es => simp [Report.levels,Report.entries,Report.number,zipWith_aged,hentries,hpriorities l (hr l rfl)]
  | classes l => simp [Report.levels,Report.entries,Report.number,zipWith_aged,hpriorities l (hr l rfl)]
  | queries es => simp [Report.levels,Report.entries,Report.number,hentries]
  | port i => cases hload

def half : Decimal := ⟨.none,['0'],some ['5'],none,List.all_eq_true.mp (by decide),List.all_eq_true.mp (by decide),by decide⟩

def sampleEntry : QueryEntry := ⟨reportType 2,half⟩

def sampleReport : Report := .all ⟨[(reportType 2).decimal],[half],[(reportType 1).decimal]⟩ [sampleEntry]

theorem sampleReport_averages :
    ∃ info' mid, (NodeInfo.new 1 : NodeInfo ℚ).updateLoadInfo (sampleReport.text ++ [NUL]) = some ((0,info'),mid) ∧
      info'.Valid ∧ info' = { (NodeInfo.new 1 : NodeInfo ℚ) with
        capacities := [2], capacityUsages := [0.5], localPriorities := [1], activeQueries := [⟨2,0.5⟩] } := by
  have hfits : sampleReport.Fits (NodeInfo.new 1 : NodeInfo ℚ).numberOfClasses := by
    rintro l hl
    obtain rfl := Option.some.inj hl
    exact ⟨rfl,rfl,rfl⟩
  obtain ⟨info',mid,h1,h2,h3⟩ := updateLoadInfo_averages (NodeInfo.new_valid 1) hfits rfl []
  refine ⟨info',mid,h1,h2,?_⟩
  rw [h3]
  have hone : digitsValue 10 [Nat.digitChar 1] = 1 := by decide
  have htwo : digitsValue 10 [Nat.digitChar 2] = 2 := by decide
  have hhalf : digitsValue 10 ['0','5'] = 5 := by decide
  simp [sampleReport,sampleEntry,half,Report.levels,Report.entries,NodeInfo.new,QueryEntry.folded,smoothed,Decimal.value,Decimal.numeral,
    Integer.decimal,Integer.value,reportType,Sign.negative,Double.ofNumeral,hone,htwo,hhalf]
  norm_num

end Averages

end AqsiosCoordinator.Coordinator
