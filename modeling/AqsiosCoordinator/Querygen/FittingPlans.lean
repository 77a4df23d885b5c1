import AqsiosCoordinator.Querygen.PlanBudgets
import AqsiosCoordinator.Querygen.SelectPlacement

/-! # Transformations keep to the capacities

A plan that keeps to the capacities of the operators is transformed without failure, and
what it is transformed to keeps to them.
-/
namespace AqsiosCoordinator.Logical.Plan
open Common Foundation Metadata

/-- Every operator keeps to the capacities, and the crosses and NOW windows have the schemas of their inputs. -/
def Fits : Plan → Prop := Everywhere fun kind outAttrs inputs => outAttrs.length ≤ MAX_ATTRS ∧
  (kind.IsCross → 2 ≤ inputs.length ∧ inputs.length ≤ MAX_INPUT_OPS ∧ outAttrs = inputs.flatten) ∧
  (kind = .nowWin → inputs = [outAttrs])

def IsPlain (kind : Kind) : Prop := ¬ kind.IsCross ∧ kind ≠ .nowWin

def height : Plan → ℕ
  | .node _ _ _ [input] => height input + 1
  | _ => 0

section Chains
variable {p q : Plan} {passed passed' : List Passed}

theorem Fits.length_le (h : Fits p) : p.outAttrs.length ≤ MAX_ATTRS := by
  obtain ⟨kind,outAttrs,bStream,inputs⟩ := p
  exact (everywhere_node.mp h).1.1

theorem fits_node {kind : Kind} {outAttrs : List Attr} {bStream : Bool} {inputs : List Plan} (hkind : IsPlain kind)
    (hlen : outAttrs.length ≤ MAX_ATTRS) (h : ∀ p ∈ inputs, Fits p) : Fits (.node kind outAttrs bStream inputs) :=
  .node ⟨hlen,fun hc => absurd hc hkind.1,fun hn => absurd hn hkind.2⟩ h

theorem fits_above {o : Passed} (hkind : IsPlain o.kind) : Fits (above o p) ↔ o.outAttrs.length ≤ MAX_ATTRS ∧ Fits p := by
  unfold Fits
  rw [everywhere_above]
  constructor
  · rintro ⟨⟨hlen,-⟩,hp⟩
    exact ⟨hlen,hp⟩
  · rintro ⟨hlen,hp⟩
    exact ⟨⟨hlen,fun hc => absurd hc hkind.1,fun hn => absurd hn hkind.2⟩,hp⟩

theorem fits_rebuild (hkinds : ∀ o ∈ passed, IsPlain o.kind) :
    Fits (rebuild p passed) ↔ (∀ o ∈ passed, o.outAttrs.length ≤ MAX_ATTRS) ∧ Fits p := by
  induction passed generalizing p with
  | nil => simp [rebuild]
  | cons o passed ih =>
    obtain ⟨ho,hkinds⟩ := List.forall_mem_cons.mp hkinds
    rw [rebuild, ih hkinds, fits_above ho, List.forall_mem_cons]
    constructor
    · rintro ⟨h1,h2,h3⟩
      exact ⟨⟨h2,h1⟩,h3⟩
    · rintro ⟨⟨h2,h1⟩,h3⟩
      exact ⟨h1,h2,h3⟩

theorem height_rebuild (p : Plan) (passed : List Passed) : height (rebuild p passed) = height p + passed.length := by
  induction passed generalizing p with
  | nil => rfl
  | cons o passed ih =>
    have habove : height (above o p) = height p + 1 := rfl
    rw [rebuild, ih, habove, List.length_cons]
    omega

theorem height_of_two {kind : Kind} {outAttrs : List Attr} {bStream : Bool} {inputs : List Plan} (h : 2 ≤ inputs.length) :
    height (.node kind outAttrs bStream inputs) = 0 := by
  unfold height
  split
  · rename_i heq
    obtain ⟨-,-,-,rfl⟩ := Plan.node.inj heq
    simp at h
  · rfl

/-- What is walked past are the operators down to where the walk stops. -/
theorem height_walk (through : Kind → Bool) (p : Plan) :
    height p = height (walk through p []).2 + (walk through p []).1.length := by
  rw [← height_rebuild, rebuild_walk]
  rfl

/-- What all kinds have that are walked past. -/
theorem walk_kinds {through : Kind → Bool} {T : Kind → Prop} (hthrough : ∀ kind, through kind = true → T kind) {top : List Passed}
    (htop : ∀ o ∈ top, T o.kind) (hw : walk through p top = (passed,q)) :
    rebuild q passed = rebuild p top ∧ ∀ o ∈ passed, T o.kind := by
  have hre := rebuild_walk through p top
  obtain ⟨new,hnew,hkinds⟩ := walk_passed through p top
  rw [hw] at hre hnew
  refine ⟨hre,fun o ho => ?_⟩
  rw [show passed = _ from hnew] at ho
  rcases List.mem_append.mp ho with ho | ho
  · exact hthrough _ (hkinds o ho)
  · exact htop o ho

theorem plain_of_cases {through : Kind → Bool} (hcross : through .cross = false) (hstream : through .streamCross = false)
    (hnow : through .nowWin = false) (kind : Kind) (h : through kind = true) : IsPlain kind := by
  constructor
  · rintro (rfl | rfl)
    · rw [hcross] at h
      cases h
    · rw [hstream] at h
      cases h
  · rintro rfl
    rw [hnow] at h
    cases h

end Chains

section Pure
variable {p : Plan}

theorem Fits.tRstreamNow (h : Fits p) : Fits (tRstreamNow p) ∧ height (Plan.tRstreamNow p) ≤ height p := by
  unfold Plan.tRstreamNow
  split
  · rename_i outAttrs bStream input
    split
    · rename_i passed nowAttrs nowStream source hw
      have hinput : Fits input := (everywhere_node.mp h).2 input (List.mem_singleton_self input)
      obtain ⟨hre,hkinds⟩ := walk_kinds (plain_of_cases rfl rfl rfl) (by simp) hw
      have hchain : rebuild (.node .nowWin nowAttrs nowStream [source]) passed = input := hre
      rw [← hchain] at hinput
      obtain ⟨hlens,hnow⟩ := (fits_rebuild hkinds).mp hinput
      have hsource := (everywhere_node.mp hnow).2 source (List.mem_singleton_self source)
      constructor
      · apply (fits_rebuild ?_).mpr ⟨?_,hsource⟩
        · intro o ho
          obtain ⟨o',ho',rfl⟩ := List.mem_map.mp ho
          exact hkinds o' ho'
        · intro o ho
          obtain ⟨o',ho',rfl⟩ := List.mem_map.mp ho
          exact hlens o' ho'
      · have hroot : height (.node .rstream outAttrs bStream [input]) = height input + 1 := rfl
        have hwin : height (.node .nowWin nowAttrs nowStream [source]) = height source + 1 := rfl
        rw [hroot, ← hchain, height_rebuild, height_rebuild, List.length_map, hwin]
        omega
    · exact ⟨h,le_rfl⟩
  · exact ⟨h,le_rfl⟩

theorem Fits.tRemoveProject (h : Fits p) : Fits (tRemoveProject p) ∧ height (Plan.tRemoveProject p) ≤ height p := by
  unfold Plan.tRemoveProject
  split
  · rename_i passed projExprs outAttrs bStream input hw
    split
    · obtain ⟨hre,hkinds⟩ := walk_kinds (plain_of_cases rfl rfl rfl) (by simp) hw
      have hchain : rebuild (.node (.project projExprs) outAttrs bStream [input]) passed = p := hre
      rw [← hchain] at h ⊢
      obtain ⟨hlens,hproject⟩ := (fits_rebuild hkinds).mp h
      have hinput := (everywhere_node.mp hproject).2 input (List.mem_singleton_self input)
      have hheight : height (.node (.project projExprs) outAttrs bStream [input]) = height input + 1 := rfl
      constructor
      · exact (fits_rebuild hkinds).mpr ⟨hlens,hinput⟩
      · rw [height_rebuild, height_rebuild, hheight]
        omega
    · exact ⟨h,le_rfl⟩
  · exact ⟨h,le_rfl⟩

end Pure

section StreamCross
variable {p q source : Plan} {F : Failure → Prop}

theorem runs_streamCrossAddInputs (first : Plan) (inputs more : List Plan) (h : CrossFits (first :: inputs ++ more)) :
    Runs 0 0 (streamCrossAddInputs (streamCrossPlan (first :: inputs)) more) (· = streamCrossPlan (first :: inputs ++ more)) F := by
  induction more generalizing inputs with
  | nil => exact runs_pure (by simp)
  | cons i more ih =>
    have hassoc : first :: inputs ++ i :: more = first :: (inputs ++ [i]) ++ more := by simp
    obtain ⟨hattrs,hlen⟩ := crossFits_of_append (hassoc ▸ h : CrossFits (first :: (inputs ++ [i]) ++ more))
    have hout : (streamCrossPlan (first :: inputs)).outAttrs.length + i.outAttrs.length ≤ MAX_ATTRS := by
      simpa [streamCrossPlan,Nat.add_assoc] using hattrs
    have hin : (streamCrossPlan (first :: inputs)).inputs.length < MAX_INPUT_OPS := by
      simp only [List.length_cons, List.length_append] at hlen
      simp only [streamCrossPlan, inputs_node, List.length_cons]
      omega
    have hadd : streamCrossAddInput (some (streamCrossPlan (first :: inputs))) (some i) =
        pure (some (streamCrossPlan (first :: (inputs ++ [i])))) := by
      have hderef (p : Plan) : deref (some p) = pure p := rfl
      have hnode : Plan.node .streamCross ((streamCrossPlan (first :: inputs)).outAttrs ++ i.outAttrs) true
          ((streamCrossPlan (first :: inputs)).inputs ++ [i]) = streamCrossPlan (first :: (inputs ++ [i])) := by
        simp [streamCrossPlan]
      simp only [streamCrossAddInput, hderef, pure_bind]
      rw [if_neg hin.ne, if_neg (by omega), ← hnode]
      rfl
    unfold streamCrossAddInputs
    rw [List.foldlM_cons, hadd, pure_bind, hassoc]
    exact ih (inputs ++ [i]) (hassoc ▸ h)

/-- Operators with one input that is no union or except. -/
theorem runs_updateSchemaRecursive (hq : q.outAttrs.length ≤ MAX_ATTRS) (passed : List Passed)
    (hkinds : ∀ o ∈ passed, o.kind ≠ .union ∧ o.kind ≠ .except) (hlens : ∀ o ∈ passed, o.outAttrs.length ≤ MAX_ATTRS) :
    Runs 0 0 (updateSchemaRecursive q passed)
      (fun passed' => passed'.map Passed.kind = passed.map Passed.kind ∧ ∀ o ∈ passed', o.outAttrs.length ≤ MAX_ATTRS) F := by
  induction passed generalizing q with
  | nil => exact runs_pure ⟨rfl,by simp⟩
  | cons o passed ih =>
    obtain ⟨hkind,hkinds⟩ := List.forall_mem_cons.mp hkinds
    unfold updateSchemaRecursive
    split
    · exact runs_pure ⟨rfl,hlens⟩
    rw [if_neg (by simpa using hkind)]
    have hout : appendSchema [] q.outAttrs = q.outAttrs := by
      simp [appendSchema,Nat.not_lt.mpr hq]
    dsimp only
    rw [hout]
    have hnext := @ih (above { o with outAttrs := q.outAttrs } q) hq hkinds (List.forall_mem_cons.mp hlens).2
    apply hnext.then (by omega) (by omega)
    rintro passed' ⟨hsame,hlens'⟩
    exact runs_pure ⟨by simp [hsame],List.forall_mem_cons.mpr ⟨hq,hlens'⟩⟩

theorem runs_updateStreamPropertyRecursive (q : Plan) (passed : List Passed) (hkinds : ∀ o ∈ passed, o.kind ≠ .union) :
    Runs 0 0 (updateStreamPropertyRecursive q passed)
      (List.Forall₂ (fun o o' : Passed => o'.kind = o.kind ∧ o'.outAttrs = o.outAttrs) passed) F := by
  have hsome : Runs 0 0 (updateStreamPropertyRecursive q passed) (fun _ => True) F := by
    induction passed generalizing q with
    | nil => exact runs_pure trivial
    | cons o passed ih =>
      obtain ⟨hkind,hkinds⟩ := List.forall_mem_cons.mp hkinds
      unfold updateStreamPropertyRecursive
      split
      · exact (ih _ hkinds).then (by omega) (by omega) fun _ _ => runs_pure trivial
      · exact (ih _ hkinds).then (by omega) (by omega) fun _ _ => runs_pure trivial
      · exact (ih _ hkinds).then (by omega) (by omega) fun _ _ => runs_pure trivial
      · exact (ih _ hkinds).then (by omega) (by omega) fun _ _ => runs_pure trivial
      · rename_i h
        exact absurd h hkind
      · exact runs_pure trivial
  apply Within.weaken (hsome.and_ensures (ensures_updateStreamPropertyRecursive_same q passed))
  · exact fun _ h => h.2
  · exact fun _ h => h

/-- The source of a NOW window takes the place of the window. -/
theorem fits_streamCross {inputs : List Plan} {outAttrs nowAttrs : List Attr} {bStream nowStream : Bool} {nowIndex : ℕ}
    (h : Fits (.node .cross outAttrs bStream inputs)) (hnow : inputs[nowIndex]? = some (.node .nowWin nowAttrs nowStream [source])) :
    CrossFits (source :: inputs.eraseIdx nowIndex) ∧ Fits (streamCrossPlan (source :: inputs.eraseIdx nowIndex)) ∧
      2 ≤ (source :: inputs.eraseIdx nowIndex).length := by
  obtain ⟨⟨hout,hcross,-⟩,hinputs⟩ := everywhere_node.mp h
  obtain ⟨htwo,hmany,hflat⟩ := hcross (.inl rfl)
  rw [List.length_map] at htwo hmany
  obtain ⟨hlt,hget⟩ := List.getElem?_eq_some_iff.mp hnow
  obtain ⟨⟨-,-,hwin⟩,hsource⟩ := everywhere_node.mp (hinputs _ (List.mem_of_getElem? hnow))
  have hsame : source.outAttrs = nowAttrs := by simpa using hwin rfl
  have hlen : (source :: inputs.eraseIdx nowIndex).length = inputs.length := by
    rw [List.length_cons, List.length_eraseIdx_of_lt hlt]
    omega
  have hperm : ((source :: inputs.eraseIdx nowIndex).map Plan.outAttrs).Perm (inputs.map Plan.outAttrs) := by
    have hp := (List.getElem_cons_eraseIdx_perm hlt).map Plan.outAttrs
    rw [hget] at hp
    simpa [hsame] using hp
  have hwidth : ((source :: inputs.eraseIdx nowIndex).map Plan.outAttrs).flatten.length ≤ MAX_ATTRS := by
    rw [hperm.flatten.length_eq, ← hflat]
    exact hout
  refine ⟨⟨hwidth,by omega⟩,?_,by omega⟩
  apply Everywhere.node
  · refine ⟨hwidth,fun _ => ⟨?_,?_,rfl⟩,fun hk => by cases hk⟩
    · rw [List.length_map]
      omega
    · rw [List.length_map]
      omega
  · intro i hi
    rcases List.mem_cons.mp hi with rfl | hi
    · exact hsource i (List.mem_singleton_self i)
    · exact hinputs i (List.mem_of_mem_eraseIdx hi)

theorem kinds_of_map {passed passed' : List Passed} {T : Kind → Prop} (h : passed'.map Passed.kind = passed.map Passed.kind)
    (hkinds : ∀ o ∈ passed, T o.kind) : ∀ o ∈ passed', T o.kind := by
  intro o ho
  have hmem : o.kind ∈ passed.map Passed.kind := h ▸ List.mem_map_of_mem ho
  obtain ⟨o',ho',he⟩ := List.mem_map.mp hmem
  exact he ▸ hkinds o' ho'

theorem runs_tStreamCross (h : Fits p) : Runs 1 0 (tStreamCross p) (fun q => Fits q ∧ height q ≤ height p) F := by
  unfold tStreamCross
  split
  · rename_i outAttrs bStream input
    split
    · rename_i passed crossAttrs crossStream inputs hw
      split
      · exact runs_pure ⟨h,le_rfl⟩
      rename_i nowIndex hidx
      let Through (kind : Kind) : Prop := IsPlain kind ∧ kind ≠ .union ∧ kind ≠ .except
      have hthrough (kind : Kind) (hk : isAboveCross kind = true) : Through kind := by
        cases kind <;> simp_all [Through,isAboveCross,IsPlain]
      obtain ⟨hre,hkinds⟩ := walk_kinds hthrough (by simp [Through,IsPlain]) hw
      have hchain : rebuild (.node .cross crossAttrs crossStream inputs) passed = .node .rstream outAttrs bStream [input] := hre
      rw [← hchain] at h ⊢
      obtain ⟨hlens,hcross⟩ := (fits_rebuild fun o ho => (hkinds o ho).1).mp h
      obtain ⟨hlt,hisNow,-⟩ := List.findIdx?_eq_some_iff_getElem.mp hidx
      obtain ⟨nowAttrs,nowStream,source,hnow⟩ : ∃ nowAttrs nowStream source,
          inputs[nowIndex]? = some (.node .nowWin nowAttrs nowStream [source]) := by
        have hfits := (everywhere_node.mp hcross).2 inputs[nowIndex] (List.getElem_mem hlt)
        rw [List.getElem?_eq_getElem hlt]
        revert hfits hisNow
        generalize inputs[nowIndex] = now
        intro hisNow hfits
        obtain ⟨kind,nowAttrs,nowStream,sources⟩ := now
        obtain rfl : kind = .nowWin := of_decide_eq_true hisNow
        obtain ⟨⟨-,-,hwin⟩,-⟩ := everywhere_node.mp hfits
        obtain ⟨source,rfl,-⟩ := List.map_eq_singleton_iff.mp (hwin rfl)
        exact ⟨nowAttrs,nowStream,source,rfl⟩
      obtain ⟨hroom,hfits,htwo⟩ := fits_streamCross hcross hnow
      have hderefNow : Runs 0 0 (deref inputs[nowIndex]?) (· = .node .nowWin nowAttrs nowStream [source]) F := by
        rw [hnow]
        exact runs_pure rfl
      apply hderefNow.then (by omega) (by omega)
      rintro now rfl
      have hderefSource : Runs 0 0 (deref (Plan.node .nowWin nowAttrs nowStream [source]).inputs[0]?) (· = source) F := runs_pure rfl
      apply hderefSource.then (by omega) (by omega)
      rintro streamSource rfl
      have hmk : Runs 1 0 (mkStreamCross (some streamSource)) (· = some (streamCrossPlan [streamSource])) F := by
        have hnode : streamCrossPlan [streamSource] = .node .streamCross streamSource.outAttrs true [streamSource] := by
          simp [streamCrossPlan]
        rw [hnode]
        exact runs_newop _
      apply hmk.then (by omega) (by omega)
      rintro o rfl
      apply (runs_streamCrossAddInputs streamSource [] (inputs.eraseIdx nowIndex) hroom).then (by omega) (by omega)
      rintro cross rfl
      apply (runs_updateSchemaRecursive hfits.length_le passed (fun o ho => (hkinds o ho).2) hlens).then (by omega) (by omega)
      rintro passed₁ ⟨hsame₁,hlens₁⟩
      have hkinds₁ := kinds_of_map hsame₁ hkinds
      apply (runs_updateStreamPropertyRecursive _ passed₁ fun o ho => (hkinds₁ o ho).2.1).then (by omega) (by omega)
      intro passed₂ hsame₂
      have hlen : passed₂.length = passed.length := by
        rw [← hsame₂.length_eq, ← List.length_map, hsame₁, List.length_map]
      have hpassed₂ : ∀ o ∈ passed₂, IsPlain o.kind ∧ o.outAttrs.length ≤ MAX_ATTRS := by
        intro o ho
        obtain ⟨k,hk,rfl⟩ := List.getElem_of_mem ho
        have hk₁ : k < passed₁.length := hsame₂.length_eq ▸ hk
        obtain ⟨hkind,hattrs⟩ := hsame₂.get hk₁ hk
        simp only [List.get_eq_getElem] at hkind hattrs
        rw [hkind, hattrs]
        exact ⟨(hkinds₁ _ (List.getElem_mem hk₁)).1,hlens₁ _ (List.getElem_mem hk₁)⟩
      apply runs_pure
      constructor
      · apply (fits_rebuild fun o ho => (hpassed₂ o (List.mem_of_mem_dropLast ho)).1).mpr
        exact ⟨fun o ho => (hpassed₂ o (List.mem_of_mem_dropLast ho)).2,hfits⟩
      · have hheight : height (streamCrossPlan ([streamSource] ++ inputs.eraseIdx nowIndex)) = 0 := height_of_two htwo
        rw [height_rebuild, height_rebuild, List.length_dropLast, hlen, hheight]
        omega
    · exact runs_pure ⟨h,le_rfl⟩
  · exact runs_pure ⟨h,le_rfl⟩

end StreamCross

section Binary
variable {p : Plan} {F : Failure → Prop}

theorem runs_binaryCross (l r : Plan) (h : l.outAttrs.length + r.outAttrs.length ≤ MAX_ATTRS) :
    Runs 1 0 (binaryCross l r) (· = binaryNode .cross l r) F := by
  have hempty : CrossFits [] := ⟨Nat.zero_le _,Nat.zero_le _⟩
  have hone : CrossFits [l] := by
    constructor
    · simp only [List.map_cons, List.map_nil, List.flatten_cons, List.flatten_nil, List.append_nil]
      omega
    · exact Nat.le_of_ble_eq_true rfl
  have htwo : CrossFits [l, r] := by
    constructor
    · simpa using h
    · exact Nat.le_of_ble_eq_true rfl
  have hcross : Runs 1 0 mkCross (· = some (crossPlan [])) F := runs_newop _
  apply hcross.then (by omega) (by omega)
  rintro o rfl
  apply (runs_crossAddInput hempty l).then (by omega) (by omega)
  rintro o (⟨-,rfl⟩ | ⟨hno,-⟩)
  · apply (runs_crossAddInput hone r).then (by omega) (by omega)
    rintro o (⟨-,rfl⟩ | ⟨hno,-⟩)
    · apply runs_pure
      simp [crossPlan,binaryNode]
    · exact absurd htwo hno
  · exact absurd hone hno

theorem runs_binaryStreamCross (l r : Plan) (h : l.outAttrs.length + r.outAttrs.length ≤ MAX_ATTRS) :
    Runs 1 0 (binaryStreamCross l r) (· = binaryNode .streamCross l r) F := by
  have htwo : CrossFits (l :: [] ++ [r]) := by
    constructor
    · simpa using h
    · exact Nat.le_of_ble_eq_true rfl
  have hmk : Runs 1 0 (mkStreamCross (some l)) (· = some (streamCrossPlan [l])) F := by
    have hnode : streamCrossPlan [l] = .node .streamCross l.outAttrs true [l] := by simp [streamCrossPlan]
    rw [hnode]
    exact runs_newop _
  apply hmk.then (by omega) (by omega)
  rintro o rfl
  have hadd := @runs_streamCrossAddInputs F l [] [r] htwo
  simp only [streamCrossAddInputs, List.foldlM_cons, List.foldlM_nil, bind_pure] at hadd
  apply Within.weaken hadd
  · rintro q rfl
    simp [streamCrossPlan,binaryNode,Kind.streams]
  · exact fun _ h => h

theorem runs_leftDeep {binary : Plan → Plan → Gen Plan} {kind : Kind}
    (hbinary : ∀ l r, l.outAttrs.length + r.outAttrs.length ≤ MAX_ATTRS → Runs 1 0 (binary l r) (· = binaryNode kind l r) F)
    (first : Plan) (rest : List Plan) (h : ((first :: rest).map Plan.outAttrs).flatten.length ≤ MAX_ATTRS) :
    Runs rest.length 0 (rest.foldlM binary first) (· = leftDeep kind first rest) F := by
  induction rest generalizing first with
  | nil => exact runs_pure rfl
  | cons r rest ih =>
    have hlen : (r :: rest).length = rest.length + 1 := rfl
    simp only [List.map_cons, List.flatten_cons, List.length_append] at h
    rw [List.foldlM_cons]
    apply (hbinary first r (by omega)).then (by omega) (by omega)
    rintro q rfl
    apply (ih _ ?_).more (by omega) (by omega)
    simp only [List.map_cons, List.flatten_cons, List.length_append, binaryNode, outAttrs_node]
    omega

theorem fits_leftDeep {kind : Kind} (hk : kind.IsCross) (first : Plan) (rest : List Plan) (hfirst : Fits first)
    (hrest : ∀ r ∈ rest, Fits r) (h : ((first :: rest).map Plan.outAttrs).flatten.length ≤ MAX_ATTRS) :
    Fits (leftDeep kind first rest) := by
  induction rest generalizing first with
  | nil => exact hfirst
  | cons r rest ih =>
    obtain ⟨hr,hrest⟩ := List.forall_mem_cons.mp hrest
    simp only [List.map_cons, List.flatten_cons, List.length_append] at h
    apply ih _ ?_ hrest
    · simp only [List.map_cons, List.flatten_cons, List.length_append, binaryNode, outAttrs_node]
      omega
    · apply Everywhere.node
      · have hnow : kind ≠ .nowWin := by
          rintro rfl
          rcases hk with hk | hk <;> cases hk
        refine ⟨?_,fun _ => ⟨Nat.le_of_ble_eq_true rfl,Nat.le_of_ble_eq_true rfl,by simp⟩,fun hn => absurd hn hnow⟩
        rw [List.length_append]
        omega
      · intro x hx
        rcases List.mem_cons.mp hx with rfl | hx
        · exact hfirst
        · rwa [List.mem_singleton.mp hx]

theorem runs_makeBinary {binary : Plan → Plan → Gen Plan} {isCross : Kind → Bool} {kind : Kind} (hk : kind.IsCross)
    (hisCross : ∀ kind', isCross kind' = true → kind' = kind)
    (hbinary : ∀ l r, l.outAttrs.length + r.outAttrs.length ≤ MAX_ATTRS → Runs 1 0 (binary l r) (· = binaryNode kind l r) F)
    (h : Fits p) : Runs MAX_INPUT_OPS 0 (makeBinary binary isCross p) (fun q => Fits q ∧ height q ≤ height p) F := by
  unfold makeBinary
  split
  rename_i passed kind' outAttrs bStream inputs hw
  split
  · rename_i hkind
    obtain rfl := hisCross kind' hkind
    obtain ⟨hre,hkinds⟩ := walk_kinds (plain_of_cases rfl rfl rfl) (by simp) hw
    have hchain : rebuild (.node kind' outAttrs bStream inputs) passed = p := hre
    rw [← hchain] at h ⊢
    obtain ⟨hlens,hcross⟩ := (fits_rebuild hkinds).mp h
    obtain ⟨⟨hout,hinputs,-⟩,hfits⟩ := everywhere_node.mp hcross
    obtain ⟨htwo,hmany,hflat⟩ := hinputs hk
    rw [List.length_map] at htwo hmany
    split
    · exact runs_pure ⟨h,le_rfl⟩
    · rename_i first second rest _
      rw [hflat] at hout
      have hlen : (first :: second :: rest).length = rest.length + 2 := rfl
      have hwidth := hout
      simp only [List.map_cons, List.flatten_cons, List.length_append] at hwidth
      apply (hbinary first second (by omega)).then (by omega) (by omega)
      rintro cross rfl
      have hdeep := @runs_leftDeep F binary kind' hbinary (binaryNode kind' first second) rest (by
        simp only [List.map_cons, List.flatten_cons, List.length_append, binaryNode, outAttrs_node]
        omega)
      apply hdeep.then (by omega) (by omega)
      rintro cross rfl
      have hnew : Fits (leftDeep kind' first (second :: rest)) :=
        fits_leftDeep hk first (second :: rest) (hfits first List.mem_cons_self)
          (fun r hr => hfits r (List.mem_cons_of_mem _ hr)) hout
      have hheight : height (leftDeep kind' first (second :: rest)) = 0 := by
        obtain ⟨a,b,hab⟩ := leftDeep_node kind' first second rest
        rw [hab]
        exact height_of_two (Nat.le_refl 2)
      apply runs_pure
      constructor
      · exact (fits_rebuild hkinds).mpr ⟨hlens,hnew⟩
      · rw [height_rebuild, height_rebuild]
        have hzero : height (leftDeep kind' (binaryNode kind' first second) rest) = 0 := hheight
        omega
    · rename_i hnot hmore
      obtain ⟨first,tail,rfl⟩ := List.exists_cons_of_length_pos (show 0 < inputs.length by omega)
      rw [List.length_cons] at htwo
      obtain ⟨second,rest,rfl⟩ := List.exists_cons_of_length_pos (show 0 < tail.length by omega)
      exact absurd rfl (hmore first second rest)
  · exact runs_pure ⟨h,le_rfl⟩

end Binary

section Push
variable {p : Plan} {F : Failure → Prop}

def Replaces (p q : Plan) : Prop := Fits q ∧ q.outAttrs = p.outAttrs

theorem Fits.replaces {kind : Kind} {outAttrs : List Attr} {bStream : Bool} {inputs inputs' : List Plan}
    (h : Fits (.node kind outAttrs bStream inputs)) (hin : List.Forall₂ Replaces inputs inputs') :
    Replaces (.node kind outAttrs bStream inputs) (.node kind outAttrs bStream inputs') := by
  have hattrs : inputs'.map Plan.outAttrs = inputs.map Plan.outAttrs := by
    clear h
    induction hin with
    | nil => rfl
    | cons hab _ ih => rw [List.map_cons, List.map_cons, hab.2, ih]
  have hfits : ∀ q ∈ inputs', Fits q := by
    clear h hattrs
    induction hin with
    | nil => simp
    | cons hab _ ih => exact List.forall_mem_cons.mpr ⟨hab.1,ih⟩
  obtain ⟨hhere,-⟩ := everywhere_node.mp h
  exact ⟨.node (hattrs ▸ hhere) hfits,rfl⟩

theorem runs_copyAbove (bexpr : BExpr) (bUsefulPush : Bool) (h : Fits p) :
    Runs 1 0 (copyAbove bexpr bUsefulPush p) (Holds (Replaces p)) F := by
  unfold copyAbove
  split
  · have hselect : Runs 1 0 (mkSelect (some p) bexpr) (· = some (unaryNode (.select bexpr) p.outAttrs p)) F :=
      runs_mkUnary (.select bexpr) (fun b => b) p
    apply hselect.then (by omega) (by omega)
    rintro o rfl
    have hplain : IsPlain (.select bexpr) := by simp [IsPlain]
    exact runs_pure (holds_some ⟨fits_node hplain h.length_le (by simpa using h),rfl⟩)
  · exact runs_pure holds_none

def PushesBelow (fits : Plan → Bool) (inputs : List Plan) (r : Option (Option (List Plan))) : Prop :=
  (∀ inputs', r = some (some inputs') → List.Forall₂ Replaces inputs inputs') ∧ (r = none ↔ inputs.any fits = false)

theorem runs_pushSelect (bexpr : BExpr) (bUsefulPush : Bool) (p : Plan) (h : Fits p) :
    Runs 1 0 (pushSelect bexpr bUsefulPush p) (Holds (Replaces p)) F := by
  have hsame (p : Plan) (h : Fits p) : Replaces p p := ⟨h,rfl⟩
  refine (pushSelect.mutual_induct bexpr
    (fun bUsefulPush p => Fits p → Runs 1 0 (pushSelect bexpr bUsefulPush p) (Holds (Replaces p)) F)
    (fun fits bUsefulPush inputs => (∀ p ∈ inputs, Fits p) →
      Runs (inputs.any fits).toNat 0 (pushBelow bexpr fits bUsefulPush inputs) (PushesBelow fits inputs) F)
    ?_ ?_ ?_ ?_ ?_ ?_).1 bUsefulPush p h
  · intro bUsefulPush pred outAttrs bStream inputs ih h
    unfold pushSelect
    apply (ih (everywhere_node.mp h).2).then (Bool.toNat_le _) (by omega)
    intro r hr
    split
    · exact runs_pure (holds_some (h.replaces (hr.1 _ rfl)))
    · exact runs_pure holds_none
  · intro bUsefulPush kind outAttrs bStream inputs hselect hk ih h
    rw [pushSelect.eq_2 _ _ _ _ _ _ hselect, if_pos hk]
    apply (ih (everywhere_node.mp h).2).then (Bool.toNat_le _) (by omega)
    intro r hr
    split
    · exact runs_pure (holds_some (h.replaces (hr.1 _ rfl)))
    · exact runs_pure holds_none
    · rw [hr.2.mp rfl]
      exact runs_copyAbove _ _ h
  · intro bUsefulPush kind outAttrs bStream inputs hselect hk h
    rw [pushSelect.eq_2 _ _ _ _ _ _ hselect, if_neg hk]
    exact runs_copyAbove _ _ h
  · intro fits bUsefulPush _
    exact runs_pure ⟨by simp,by simp⟩
  · intro fits bUsefulPush input inputs hfits ih h
    obtain ⟨hinput,hinputs⟩ := List.forall_mem_cons.mp h
    unfold pushBelow
    have hany : (input :: inputs).any fits = true := by simp [hfits]
    rw [if_pos hfits, hany]
    apply (ih hinput).then (Nat.le_refl 1) (by omega)
    intro o ho
    split
    · rename_i input'
      apply runs_pure
      refine ⟨fun inputs' he => ?_,by simp [hfits]⟩
      obtain rfl : input' :: inputs = inputs' := by simpa using he
      exact .cons (ho input' rfl) (List.forall₂_same.mpr fun p hp => hsame p (hinputs p hp))
    · exact runs_pure ⟨fun _ he => by simp at he,by simp [hfits]⟩
  · intro fits bUsefulPush input inputs hfits ih h
    obtain ⟨hinput,hinputs⟩ := List.forall_mem_cons.mp h
    have hany : (input :: inputs).any fits = inputs.any fits := by simp [hfits]
    unfold pushBelow
    rw [if_neg hfits, hany]
    apply (ih hinputs).then (by omega) (by omega)
    intro r hr
    split
    · rename_i inputs₁
      apply runs_pure
      refine ⟨fun inputs' he => ?_,by simpa [hany] using hr.2⟩
      obtain rfl : input :: inputs₁ = inputs' := by simpa using he
      exact .cons (hsame input hinput) (hr.1 inputs₁ rfl)
    · rename_i hne
      exact runs_pure ⟨fun inputs' he => absurd he (hne inputs'),by rw [hany]; exact hr.2⟩

theorem runs_pushSelects (n : ℕ) (h : Fits p) : Runs n 0 (pushSelects n p) Fits F := by
  fun_induction pushSelects n p with
  | case1 n bexpr outAttrs bStream input ih =>
    obtain ⟨⟨hlen,-⟩,hinputs⟩ := everywhere_node.mp h
    have hinput : Fits input := hinputs input (List.mem_singleton_self input)
    apply (runs_pushSelect bexpr false input hinput).then (by omega) (by omega)
    intro o ho
    split
    · rename_i pushed
      exact (ih pushed (ho pushed rfl).1).more (by omega) (by omega)
    · apply ((ih input hinput).more (by omega) (Nat.le_refl 0)).then (Nat.le_refl _) (by omega)
      intro q hq
      have hplain : IsPlain (.select bexpr) := by simp [IsPlain]
      exact runs_pure (fits_node hplain hlen (by simpa using hq))
  | case2 => exact runs_pure h

theorem runs_tPushSelect (h : Fits p) : Runs (height p) 0 (tPushSelect p) Fits F := by
  unfold tPushSelect
  split
  rename_i passed q hw
  have hheight := height_walk isUnaryAboveSelect p
  rw [hw] at hheight
  have hselects := height_walk isSelect q
  obtain ⟨hre,hkinds⟩ := walk_kinds (plain_of_cases rfl rfl rfl) (by simp) hw
  have hchain : rebuild q passed = p := hre
  dsimp only at hheight ⊢
  split
  · exact runs_pure h
  · rw [← hchain] at h
    obtain ⟨hlens,hq⟩ := (fits_rebuild hkinds).mp h
    apply ((runs_pushSelects _ hq).more (by omega) (Nat.le_refl 0)).then (Nat.le_refl _) (by omega)
    intro q' hq'
    exact runs_pure ((fits_rebuild hkinds).mpr ⟨hlens,hq'⟩)

end Push

end AqsiosCoordinator.Logical.Plan
