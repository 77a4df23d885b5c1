import AqsiosCoordinator.Metadata.SharingUnique
import AqsiosCoordinator.Metadata.SharedPlans

/-! # The classes of shared operators

Operators above tables that compute the same feed, together, the outputs whose computation
has theirs below it, before the run and after it. What is left of them has the least of
their classes, and that is the class of one of these outputs unless one of them had no
class. Operators over the system's own stream alone are not merged, and keep their class
while what they feed is merged.
-/
namespace AqsiosCoordinator.Physical
open Common Foundation Foundation.Outcome Metadata Relation
variable {s t : PlanState}

/-- The operators are not told apart by what they compute, and one that is not merged is told apart from every other. -/
def PlanState.SameComputation (s : PlanState) (x y : OpId) : Prop :=
  ∃ tree, Unfolds (fun o => identLabel o (s.ops o)) s.ports.inputs x tree ∧
    Unfolds (fun o => identLabel o (s.ops o)) s.ports.inputs y tree

def PlanState.FeedsOutput (s : PlanState) (o : OpId) : Prop := ∃ p, s.IsOutput p ∧ ReflTransGen s.ports.Feeds o p

/-- The operator stands above a table that the run starts from. -/
def PlanState.AboveTable (s : PlanState) (o : OpId) : Prop := ∃ d ∈ s.dataSources, ReflTransGen s.ports.Feeds d o

/-- On a way up from `z` through operators above no table, `w` is an OUTPUT or the first operator above one. -/
def PlanState.LeadsTo (s : PlanState) (z w : OpId) : Prop :=
  Outside s.ports.Feeds s.AboveTable z w ∧ (s.AboveTable w ∨ s.IsOutput w)

/-- An operator that computes the same as `w` has class `k`. -/
def PlanState.HasClass (s : PlanState) (w : OpId) (k : ℤ) : Prop := ∃ v ∈ s.used, s.SameComputation w v ∧ s.queryClass v = k

/-- Where an operator above no table leads to one of two operators that compute the same and not
to the other, its class is right whichever of them is left: none of those that it leads to computes
the same as one of a smaller class, and its own class is found at one that it leads to in any case,
or at all of them. -/
def PlanState.EvenClasses (s : PlanState) : Prop :=
  ∀ z ∈ s.used, ¬ s.AboveTable z → ∀ x, s.LeadsTo z x → s.FeedsOutput x → ∀ y ∈ s.used, s.SameComputation x y →
    ¬ s.LeadsTo z y →
      (∀ w, s.LeadsTo z w → s.FeedsOutput w → ∀ v ∈ s.used, s.SameComputation w v → s.queryClass z ≤ s.queryClass v) ∧
      ((∃ w, s.LeadsTo z w ∧ s.FeedsOutput w ∧ s.HasClass w (s.queryClass z) ∧
          ∀ v ∈ s.used, s.SameComputation w v → s.LeadsTo z v) ∨
        ∀ w, s.LeadsTo z w → s.FeedsOutput w → s.HasClass w (s.queryClass z))

/-- The class of an operator is the least class of the outputs that it feeds, and 0 when it feeds none. -/
def PlanState.LeastClass (s : PlanState) (o : OpId) : Prop := LeastOr 0 (s.classesAbove s.queryClass o) (s.queryClass o)

section Run
variable {T : OpId → ComputationTree (Label × Option OpId)} {o p : OpId}

theorem sameComputation_iff {V : List OpId} {x y : OpId}
    (hT : IsUnfolding (fun o => identLabel o (s.ops o)) s.ports.inputs V T) (hx : x ∈ V) (hy : y ∈ V) :
    s.SameComputation x y ↔ T x = T y := by
  constructor
  · rintro ⟨tree,hxt,hyt⟩
    rw [(hT.unfolds hx).unique hxt, (hT.unfolds hy).unique hyt]
  · intro heq
    exact ⟨T x,hT.unfolds hx,heq ▸ hT.unfolds hy⟩

theorem Merging.same_iff {x y : OpId} (h : Merging s.used T s) (hx : x ∈ s.used) (hy : y ∈ s.used) :
    s.SameComputation x y ↔ T x = T y := sameComputation_iff h.computes.unfolding hx hy

theorem Merging.readsTable (h : Merging s.used T s) {x : OpId} (habove : s.AboveTable x) : ∃ j, ReadsTable j (T x) := by
  obtain ⟨d,hd,hdx⟩ := habove
  have hdu : d ∈ s.used := List.mem_of_mem_filter hd
  induction hdx with
  | refl => exact ⟨0,(readsTable_zero h.computes.unfolding hdu).mpr hd⟩
  | @tail b c hdb hbc ih =>
    obtain ⟨j,hj⟩ := ih
    have hb := h.consistent.feeds_mem hdu hdb
    have hc := h.consistent.outputs_mem b hb c hbc
    exact ⟨j + 1,T b,h.computes.unfolding.mem_inputs hc ((h.consistent.mem_iff hc hb).mpr hbc),hj⟩

theorem Merging.aboveTable (h : Merging s.used T s) {x : OpId} (hx : x ∈ s.used) {j : ℕ} (hread : ReadsTable j (T x)) :
    s.AboveTable x := by
  induction j generalizing x with
  | zero => exact ⟨x,(readsTable_zero h.computes.unfolding hx).mp hread,.refl⟩
  | succ j ih =>
    obtain ⟨c,hc,hread⟩ := hread
    rw [h.computes.unfolding.inputs_eq hx] at hc
    obtain ⟨w,hw,rfl⟩ := List.mem_map.mp hc
    have hwu := h.consistent.inputs_mem x hx w hw
    obtain ⟨d,hd,hdw⟩ := ih hwu hread
    exact ⟨d,hd,hdw.tail ((h.consistent.mem_iff hx hwu).mp hw)⟩

theorem Merging.aboveTable_same (h : Merging s.used T s) {x y : OpId} (hy : y ∈ s.used) (heq : T x = T y)
    (habove : s.AboveTable x) : s.AboveTable y := by
  obtain ⟨j,hread⟩ := h.readsTable habove
  exact h.aboveTable hy (heq ▸ hread)

/-- An operator reaches the outputs whose computation has its own below it, provided that
it is the only one with this computation. -/
theorem Merging.reaches_iff {V : List OpId} (h : Merging V T t) (huniq : ∀ z ∈ t.used, T z = T o → z = o)
    (ho : o ∈ t.used) (hp : p ∈ t.used) : ReflTransGen t.ports.Feeds o p ↔ (T o).Below (T p) := by
  have hT := h.computes.unfolding
  constructor
  · intro hop
    exact (hT.below (h.used_mem p hp) (h.consistent.reads_of_feeds ho hop)).2
  · intro hbelow
    obtain ⟨z,hpz,hzo⟩ := hT.exists_of_below (h.used_mem p hp) hbelow
    obtain ⟨hz,hfeeds⟩ := h.consistent.feeds_of_reads hp hpz
    exact huniq z hz hzo ▸ hfeeds

theorem Merging.below_of_reaches {V : List OpId} (h : Merging V T t) (ho : o ∈ t.used)
    (hop : ReflTransGen t.ports.Feeds o p) : (T o).Below (T p) :=
  (h.computes.unfolding.below (h.used_mem p (h.consistent.feeds_mem ho hop)) (h.consistent.reads_of_feeds ho hop)).2

theorem Merging.exists_reaches {V : List OpId} {tree : ComputationTree (Label × Option OpId)} (h : Merging V T t)
    (hp : p ∈ t.used) (hbelow : tree.Below (T p)) : ∃ z ∈ t.used, T z = tree ∧ ReflTransGen t.ports.Feeds z p := by
  obtain ⟨z,hpz,hzo⟩ := h.computes.unfolding.exists_of_below (h.used_mem p hp) hbelow
  obtain ⟨hz,hfeeds⟩ := h.consistent.feeds_of_reads hp hpz
  exact ⟨z,hz,hzo,hfeeds⟩

/-- A run that leaves one operator for each computation over a table, and does not touch the others. -/
structure SharedRun (T : OpId → ComputationTree (Label × Option OpId)) (s t : PlanState) : Prop where
  before : Merging s.used T s
  after : Merging s.used T t
  lowered : Lowered s.used T s t
  unique : ∀ x ∈ t.used, s.AboveTable x → ∀ y ∈ t.used, T x = T y → x = y
  spared : ∀ z ∈ s.used, ¬ s.AboveTable z → Spared z s t
  generator : ∀ x, s.AboveTable x → (s.ops x).body.kind ≠ .ssGen
  kinds : ∀ o ∈ s.used, (t.ops o).body.kind = (s.ops o).body.kind

theorem Merging.eq_of_kind (h : Merging s.used T s) {x y : OpId} (hx : x ∈ s.used) (hy : y ∈ s.used)
    (hk : (s.ops y).body.kind.combines = false) (heq : T x = T y) : x = y := by
  by_contra hne
  have hcomb := h.combines hx hy hne heq
  rw [hk] at hcomb
  simp at hcomb

theorem SharedRun.isOutput_iff (h : SharedRun T s t) : t.IsOutput p ↔ s.IsOutput p := by
  constructor
  · rintro ⟨hp,hk⟩
    have hps := h.lowered.used p hp
    exact ⟨hps,(h.kinds p hps).symm.trans hk⟩
  · rintro ⟨hp,hk⟩
    obtain ⟨w,hw,hwp,-⟩ := h.lowered.least p hp
    obtain rfl := h.before.eq_of_kind (h.lowered.used w hw) hp (by rw [hk]; rfl) hwp
    exact ⟨hw,(h.kinds w hp).trans hk⟩

theorem SharedRun.outputClass (h : SharedRun T s t) (hp : s.IsOutput p) : t.queryClass p = s.queryClass p := by
  obtain ⟨w,hw,hwp,hclass⟩ := h.lowered.origin p hp.1
  obtain rfl := h.before.eq_of_kind hw hp.1 (by rw [hp.2]; rfl) hwp
  exact hclass

/-- The classes of the outputs whose computation has a given one below it. -/
def outputClasses (T : OpId → ComputationTree (Label × Option OpId)) (s : PlanState) (tree : ComputationTree (Label × Option OpId)) :
    Set ℤ := {k | ∃ p, s.IsOutput p ∧ tree.Below (T p) ∧ s.queryClass p = k}

theorem SharedRun.reaches (h : SharedRun T s t) (ho : o ∈ t.used) (habove : s.AboveTable o) (hp : p ∈ t.used)
    (hbelow : (T o).Below (T p)) : ReflTransGen t.ports.Feeds o p :=
  (h.after.reaches_iff (fun z hz hzo => (h.unique o ho habove z hz hzo.symm).symm) ho hp).mpr hbelow

theorem SharedRun.classesAbove (h : SharedRun T s t) (ho : o ∈ t.used) (habove : s.AboveTable o) :
    t.classesAbove t.queryClass o = outputClasses T s (T o) := by
  ext k
  constructor
  · rintro ⟨p,hp,hop,rfl⟩
    have hps := h.isOutput_iff.mp hp
    exact ⟨p,hps,h.after.below_of_reaches ho hop,(h.outputClass hps).symm⟩
  · rintro ⟨p,hps,hbelow,rfl⟩
    have hp := h.isOutput_iff.mpr hps
    exact ⟨p,hp,h.reaches ho habove hp.1 hbelow,h.outputClass hps⟩

theorem SharedRun.mem_outputClasses (h : SharedRun T s t) {tree : ComputationTree (Label × Option OpId)} {k : ℤ} :
    k ∈ outputClasses T s tree ↔ ∃ z ∈ s.used, T z = tree ∧ k ∈ s.classesAbove s.queryClass z := by
  constructor
  · rintro ⟨p,hp,hbelow,rfl⟩
    obtain ⟨z,hz,hzt,hfeeds⟩ := h.before.exists_reaches hp.1 hbelow
    exact ⟨z,hz,hzt,p,hp,hfeeds,rfl⟩
  · rintro ⟨z,hz,rfl,p,hp,hop,rfl⟩
    exact ⟨p,hp,h.before.below_of_reaches hz hop,rfl⟩

theorem feedsOutput_iff : s.FeedsOutput o ↔ (s.classesAbove s.queryClass o).Nonempty := by
  constructor
  · rintro ⟨p,hp,hop⟩
    exact ⟨_,p,hp,hop,rfl⟩
  · rintro ⟨_,p,hp,hop,-⟩
    exact ⟨p,hp,hop⟩

theorem SharedRun.exists_feeds (h : SharedRun T s t) {w : OpId} (hw : w ∈ t.used) (hp : s.IsOutput p)
    (hwp : ReflTransGen t.ports.Feeds w p) : ∃ y ∈ s.used, T y = T w ∧ ReflTransGen s.ports.Feeds y p :=
  h.before.exists_reaches hp.1 (h.after.below_of_reaches hw hwp)

theorem SharedRun.feeds_iff (h : SharedRun T s t) {a b : OpId} (ha : a ∈ s.used) (habove : ¬ s.AboveTable a)
    (hb : b ∈ t.used) : t.ports.Feeds a b ↔ s.ports.Feeds a b := by
  have hspared := h.spared a ha habove
  calc t.ports.Feeds a b ↔ a ∈ (t.ops b).inputs := (h.after.consistent.mem_iff hb (hspared.used ha)).symm
    _ ↔ a ∈ (s.ops b).inputs := hspared.inputs b
    _ ↔ s.ports.Feeds a b := h.before.consistent.mem_iff (h.lowered.used b hb) ha

theorem SharedRun.outside_before (h : SharedRun T s t) {z w : OpId} (hz : z ∈ t.used)
    (hzw : Outside t.ports.Feeds s.AboveTable z w) : w ∈ t.used ∧ Outside s.ports.Feeds s.AboveTable z w := by
  induction hzw with
  | refl => exact ⟨hz,.refl⟩
  | @tail b c _ hbc ih =>
    obtain ⟨hb,hzb⟩ := ih
    have hc := h.after.consistent.outputs_mem b hb c hbc.2
    exact ⟨hc,hzb.tail ⟨hbc.1,(h.feeds_iff (h.lowered.used b hb) hbc.1 hc).mp hbc.2⟩⟩

theorem SharedRun.outside_after (h : SharedRun T s t) {z w : OpId} (hz : z ∈ s.used) (hw : w ∈ t.used)
    (hzw : Outside s.ports.Feeds s.AboveTable z w) : Outside t.ports.Feeds s.AboveTable z w := by
  induction hzw with
  | refl => exact .refl
  | @tail b c hzb hbc ih =>
    have hb := h.before.consistent.feeds_mem hz (Outside.reaches hzb)
    exact (ih ((h.spared b hb hbc.1).used hb)).tail ⟨hbc.1,(h.feeds_iff hb hbc.1 hw).mpr hbc.2⟩

/-- After the run a way up leads out of the operators that are not merged where one did before it. -/
theorem SharedRun.exists_leadsTo (h : SharedRun T s t) (ho : o ∈ t.used) (hp : t.IsOutput p)
    (hop : ReflTransGen t.ports.Feeds o p) :
    ∃ w ∈ t.used, s.LeadsTo o w ∧ (s.AboveTable w ∧ ReflTransGen t.ports.Feeds w p ∨ w = p) := by
  obtain ⟨w,how,hwp,hend⟩ := exists_outside s.AboveTable hop
  obtain ⟨hw,how⟩ := h.outside_before ho how
  rcases hend with habove | rfl
  · exact ⟨w,hw,⟨how,.inl habove⟩,.inl ⟨habove,hwp⟩⟩
  · exact ⟨w,hw,⟨how,.inr (h.isOutput_iff.mp hp)⟩,.inr rfl⟩

theorem SharedRun.feedsOutput_before (h : SharedRun T s t)
    (hmix : ∀ x ∈ s.used, ∀ y ∈ s.used, s.AboveTable x → T x = T y → s.FeedsOutput x → s.FeedsOutput y) {w : OpId}
    (hw : w ∈ t.used) (habove : s.AboveTable w) (hp : s.IsOutput p) (hwp : ReflTransGen t.ports.Feeds w p) :
    s.FeedsOutput w := by
  obtain ⟨y,hy,hyw,hyp⟩ := h.exists_feeds hw hp hwp
  exact hmix y hy w (h.lowered.used w hw) (h.before.aboveTable_same hy hyw.symm habove) hyw ⟨p,hp,hyp⟩

/-- An operator that is not merged keeps its outputs when it leads to all or none of the
operators that compute the same. -/
theorem SharedRun.classesAbove_outside (h : SharedRun T s t)
    (hmix : ∀ x ∈ s.used, ∀ y ∈ s.used, s.AboveTable x → T x = T y → s.FeedsOutput x → s.FeedsOutput y) (ho : o ∈ t.used)
    (hall : ∀ x, s.LeadsTo o x → s.FeedsOutput x → ∀ y ∈ s.used, T x = T y → s.LeadsTo o y) :
    t.classesAbove t.queryClass o = s.classesAbove s.queryClass o := by
  have hos := h.lowered.used o ho
  ext k
  constructor
  · rintro ⟨p,hp,hop,rfl⟩
    have hps := h.isOutput_iff.mp hp
    obtain ⟨w,hw,how,hwp⟩ := h.exists_leadsTo ho hp hop
    refine ⟨p,hps,?_,(h.outputClass hps).symm⟩
    rcases hwp with ⟨habove,hwp⟩ | rfl
    · obtain ⟨y,hy,hyw,hyp⟩ := h.exists_feeds hw hps hwp
      have hfw := h.feedsOutput_before hmix hw habove hps hwp
      exact (hall w how hfw y hy hyw.symm).1.reaches.trans hyp
    · exact how.1.reaches
  · rintro ⟨p,hps,hop,rfl⟩
    have hp := h.isOutput_iff.mpr hps
    refine ⟨p,hp,?_,h.outputClass hps⟩
    obtain ⟨x,hox,hxp,hend⟩ := exists_outside s.AboveTable hop
    have hx := h.before.consistent.feeds_mem hos hox.reaches
    rcases hend with habove | rfl
    · obtain ⟨w,hw,hwx,-⟩ := h.lowered.least x hx
      have how := hall x ⟨hox,.inl habove⟩ ⟨p,hps,hxp⟩ w (h.lowered.used w hw) hwx.symm
      have hwabove := h.before.aboveTable_same (h.lowered.used w hw) hwx.symm habove
      have hbelow := hwx ▸ h.before.below_of_reaches hx hxp
      exact (h.outside_after hos hw how.1).reaches.trans (h.reaches hw hwabove hp.1 hbelow)
    · exact (h.outside_after hos hp.1 hox).reaches

section Law
variable (hpos : ∀ p, s.IsOutput p → 1 ≤ s.queryClass p)
include hpos

theorem zero_not_mem_classesAbove (z : OpId) : (0 : ℤ) ∉ s.classesAbove s.queryClass z := by
  rintro ⟨p,hp,-,hk⟩
  have hone := hpos p hp
  omega

theorem one_le_of_mem_outputClasses {tree : ComputationTree (Label × Option OpId)} {k : ℤ}
    (hk : k ∈ outputClasses T s tree) : 1 ≤ k := by
  obtain ⟨p,hp,-,rfl⟩ := hk
  exact hpos p hp

theorem PlanState.LeastClass.isLeast (hl : s.LeastClass o) (hf : s.FeedsOutput o) :
    IsLeast (s.classesAbove s.queryClass o) (s.queryClass o) :=
  LeastOr.isLeast hl ((hl.ne_iff (zero_not_mem_classesAbove hpos o)).mpr (feedsOutput_iff.mp hf))

variable (hlaw : ∀ o ∈ s.used, (s.ops o).body.kind ≠ .ssGen → s.LeastClass o)
include hlaw

/-- An operator without an output has no class, and brings that into what is left of it. -/
theorem SharedRun.unmixed (h : SharedRun T s t)
    (hafter : ∀ o ∈ t.used, ((s.ops o).body.kind = .ssGen → s.LeastClass o) → t.FeedsOutput o → t.LeastClass o)
    {x y : OpId} (hx : x ∈ s.used) (hy : y ∈ s.used) (habove : s.AboveTable x) (heq : T x = T y) (hfx : s.FeedsOutput x) :
    s.FeedsOutput y := by
  by_contra hfy
  have hyabove := h.before.aboveTable_same hy heq habove
  have hy0 : s.queryClass y = 0 := by
    have hlawy := hlaw y hy (h.generator y hyabove)
    by_contra hn
    exact hfy (feedsOutput_iff.mpr ((hlawy.ne_iff (zero_not_mem_classesAbove hpos y)).mp hn))
  obtain ⟨o,ho,hoy,hle⟩ := h.lowered.least y hy
  have hoabove := h.before.aboveTable_same (h.lowered.used o ho) hoy.symm hyabove
  obtain ⟨k,hk⟩ := feedsOutput_iff.mp hfx
  have hmem : k ∈ t.classesAbove t.queryClass o := by
    rw [h.classesAbove ho hoabove]
    exact h.mem_outputClasses.mpr ⟨x,hx,heq.trans hoy.symm,hk⟩
  have hlawo := hafter o ho (fun hk' => absurd hk' (h.generator o hoabove)) (feedsOutput_iff.mpr ⟨k,hmem⟩)
  have hone : ∀ l ∈ t.classesAbove t.queryClass o, 1 ≤ l := by
    rw [h.classesAbove ho hoabove]
    exact fun l hl => one_le_of_mem_outputClasses hpos hl
  have hz : (0 : ℤ) ∉ t.classesAbove t.queryClass o := fun h0 => by simpa using hone 0 h0
  have hin := hone _ (LeastOr.isLeast hlawo ((hlawo.ne_iff hz).mpr ⟨k,hmem⟩)).1
  omega

variable (hmix : ∀ x ∈ s.used, ∀ y ∈ s.used, s.AboveTable x → T x = T y → s.FeedsOutput x → s.FeedsOutput y)
include hmix

/-- What is left of the operators that compute the same has the least of their classes. -/
theorem SharedRun.leastClass_above (h : SharedRun T s t) (ho : o ∈ t.used) (habove : s.AboveTable o)
    (hfo : t.FeedsOutput o) : t.LeastClass o := by
  have hos := h.lowered.used o ho
  obtain ⟨k,hk⟩ := feedsOutput_iff.mp hfo
  rw [h.classesAbove ho habove] at hk
  obtain ⟨x,hx,hxo,hkx⟩ := h.mem_outputClasses.mp hk
  have hfed : ∀ z ∈ s.used, T z = T o → IsLeast (s.classesAbove s.queryClass z) (s.queryClass z) := by
    intro z hz hzo
    have hxabove := h.before.aboveTable_same hx hxo.symm habove
    have hfz := hmix x hx z hz hxabove (hxo.trans hzo.symm) (feedsOutput_iff.mpr ⟨k,hkx⟩)
    exact (hlaw z hz (h.generator z (h.before.aboveTable_same hz hzo.symm habove))).isLeast hpos hfz
  left
  constructor
  · obtain ⟨w,hw,hwo,heq⟩ := h.lowered.origin o hos
    rw [h.classesAbove ho habove, heq]
    exact h.mem_outputClasses.mpr ⟨w,hw,hwo,(hfed w hw hwo).1⟩
  · intro l hl
    rw [h.classesAbove ho habove] at hl
    obtain ⟨z,hz,hzo,hlz⟩ := h.mem_outputClasses.mp hl
    obtain ⟨w,hw,hwz,hle⟩ := h.lowered.least z hz
    obtain rfl := h.unique o ho habove w hw (hwz.trans hzo).symm
    exact hle.trans ((hfed z hz hzo).2 hlz)

/-- The class of an operator that is not merged is still found, at what is left of the operators that compute the same. -/
theorem SharedRun.mem_classesAbove_of_hasClass (h : SharedRun T s t) (hos : o ∈ s.used) {w : OpId} (hw : w ∈ t.used)
    (how : s.LeadsTo o w) (hfw : s.FeedsOutput w) (hclass : s.HasClass w (s.queryClass o)) :
    s.queryClass o ∈ t.classesAbove t.queryClass o := by
  have hws := h.lowered.used w hw
  obtain ⟨v,hv,hwv,hvo⟩ := hclass
  have hsame := (h.before.same_iff hws hv).mp hwv
  have hopw := (h.outside_after hos hw how.1).reaches
  rcases how.2 with habove | hout
  · have hvabove := h.before.aboveTable_same hv hsame habove
    have hlawv := hlaw v hv (h.generator v hvabove)
    obtain ⟨p,hp,hvp,hpv⟩ := (hlawv.isLeast hpos (hmix w hws v hv habove hsame hfw)).1
    have hpt := h.isOutput_iff.mpr hp
    have hwp := h.reaches hw habove hpt.1 (hsame ▸ h.before.below_of_reaches hv hvp)
    exact ⟨p,hpt,hopw.trans hwp,(h.outputClass hp).trans (hpv.trans hvo)⟩
  · obtain rfl := h.before.eq_of_kind hv hws (by rw [hout.2]; rfl) hsame.symm
    exact ⟨v,h.isOutput_iff.mpr hout,hopw,(h.outputClass hout).trans hvo⟩

/-- An operator that is not merged keeps its class, and that is still the least of its outputs. -/
theorem SharedRun.leastClass_outside (h : SharedRun T s t) (heven : s.EvenClasses) (ho : o ∈ t.used)
    (habove : ¬ s.AboveTable o) (hlo : s.LeastClass o) (hfo : t.FeedsOutput o) : t.LeastClass o := by
  have hos := h.lowered.used o ho
  have hclass := (h.spared o hos habove).queryClass
  by_cases hall : ∀ x, s.LeadsTo o x → s.FeedsOutput x → ∀ y ∈ s.used, T x = T y → s.LeadsTo o y
  · rw [PlanState.LeastClass, h.classesAbove_outside hmix ho hall, hclass]
    exact hlo
  push Not at hall
  obtain ⟨x,hox,hfx,y,hy,hxy,hoy⟩ := hall
  have hx := h.before.consistent.feeds_mem hos hox.1.reaches
  obtain ⟨hle,hfound⟩ := heven o hos habove x hox hfx y hy ((h.before.same_iff hx hy).mpr hxy) hoy
  left
  rw [hclass]
  constructor
  · rcases hfound with ⟨x,hox,hfx,⟨v,hv,hxv,hvo⟩,hled⟩ | hfound
    · -- what is left of those that compute the same as `x` is one that `o` leads to
      have hx := h.before.consistent.feeds_mem hos hox.1.reaches
      obtain ⟨w,hw,hwx,-⟩ := h.lowered.least x hx
      have hws := h.lowered.used w hw
      have how := hled w hws ((h.before.same_iff hx hws).mpr hwx.symm)
      have hfw : s.FeedsOutput w := by
        rcases hox.2 with hxabove | hout
        · exact hmix x hx w hws hxabove hwx.symm hfx
        · obtain rfl := h.before.eq_of_kind hws hx (by rw [hout.2]; rfl) hwx
          exact hfx
      have hwv := (h.before.same_iff hws hv).mpr (hwx.trans ((h.before.same_iff hx hv).mp hxv))
      exact h.mem_classesAbove_of_hasClass hpos hlaw hmix hos hw how hfw ⟨v,hv,hwv,hvo⟩
    · obtain ⟨p,hp,hop⟩ := hfo
      have hps := h.isOutput_iff.mp hp
      obtain ⟨w,hw,how,hwp⟩ := h.exists_leadsTo ho hp hop
      have hfw : s.FeedsOutput w := by
        rcases hwp with ⟨hwabove,hwp⟩ | rfl
        · exact h.feedsOutput_before hmix hw hwabove hps hwp
        · exact ⟨w,hps,.refl⟩
      exact h.mem_classesAbove_of_hasClass hpos hlaw hmix hos hw how hfw (hfound w how hfw)
  · rintro k ⟨p,hp,hop,rfl⟩
    have hps := h.isOutput_iff.mp hp
    rw [h.outputClass hps]
    obtain ⟨w,hw,how,hwp⟩ := h.exists_leadsTo ho hp hop
    have hws := h.lowered.used w hw
    rcases hwp with ⟨hwabove,hwp⟩ | rfl
    · obtain ⟨y,hy,hyw,hyp⟩ := h.exists_feeds hw hps hwp
      have hlawy := hlaw y hy (h.generator y (h.before.aboveTable_same hy hyw.symm hwabove))
      have hfw := h.feedsOutput_before hmix hw hwabove hps hwp
      calc s.queryClass o ≤ s.queryClass y := hle w how hfw y hy ((h.before.same_iff hws hy).mpr hyw.symm)
        _ ≤ s.queryClass p := (hlawy.isLeast hpos ⟨p,hps,hyp⟩).2 ⟨p,hps,hyp,rfl⟩
    · have hww := (h.before.same_iff hws hws).mpr rfl
      exact hle w how ⟨w,hps,.refl⟩ w hws hww

end Law

end Run

theorem Sound.aboveTable_ne_ssGen (hs : Sound s) {x : OpId} (h : s.AboveTable x) : (s.ops x).body.kind ≠ .ssGen := by
  intro hk
  obtain ⟨d,hd,hdx⟩ := h
  have hdu : d ∈ s.used := List.mem_of_mem_filter hd
  cases hdx with
  | refl => simp [PlanState.dataSources,hk] at hd
  | @tail b _ hdb hbx =>
    have hb := hs.consistent.feeds_mem hdu hdb
    have hx := hs.consistent.outputs_mem b hb x hbx
    have hreads := (hs.consistent.mem_iff hx hb).mpr hbx
    have harity := hs.arity x hx
    have hzero : (s.ops x).body.arity = 0 := by
      cases hb : (s.ops x).body <;> simp [hb,Body.kind,Body.arity] at hk ⊢
    rw [hzero, List.length_eq_zero_iff] at harity
    rw [ports_inputs, harity] at hreads
    cases hreads

theorem Sound.sharedRun {T : OpId → ComputationTree (Label × Option OpId)} (hs : Sound s) (h : Merging s.used T s)
    (hlevels : LevelsOrderly s.SameComputation (MAX_OPS + 1) s.dataSources s)
    {levels : List (List Merge)} (hrun : findSharedOps true s = .ok levels t) : SharedRun T s t := by
  have hrun' : shareLevels true (MAX_OPS + 1) s.dataSources s = .ok levels t := hrun
  have hsources : ∀ z ∈ s.used, ReadsTable 0 (T z) → z ∈ s.dataSources :=
    fun z hz hread => (readsTable_zero h.computes.unfolding hz).mp hread
  have hmem : ∀ o ∈ s.dataSources, o ∈ s.used ∧ ReadsTable 0 (T o) := by
    intro o ho
    have hou : o ∈ s.used := List.mem_of_mem_filter ho
    exact ⟨hou,(readsTable_zero h.computes.unfolding hou).mpr ho⟩
  have hsame : ∀ x ∈ s.used, ∀ y ∈ s.used, (s.SameComputation x y ↔ T x = T y) := fun x hx y hy => h.same_iff hx hy
  obtain ⟨hafter,hlow,huniq,hspared⟩ := shareLevels_ok hsame (MAX_OPS + 1) 0 h (hs.pool.nodup.filter _) hmem hsources
    hlevels hrun'
  refine ⟨h,hafter,hlow,fun x hx habove y hy heq => ?_,fun z hz habove => ?_,fun x => hs.aboveTable_ne_ssGen,fun o ho => ?_⟩
  · obtain ⟨j,hj⟩ := h.readsTable habove
    exact huniq j (Nat.zero_le j) x hx y hy hj heq
  · exact hspared z fun j hj => habove (h.aboveTable hz hj)
  · have hkind {u : PlanState} (hu : Merging s.used T u) : (T o).label.1.body.kind = (u.ops o).body.kind := by
      rw [hu.computes.unfolding.label_eq ho]
      simp only [identLabel, Operator.label, untyped_kind]
    rw [← hkind h, ← hkind hafter]

/-- For every registered plan that has been prepared for it, every order of the outputs and
every assignment of classes by the outputs that are fed, when the levels start orderly and
the classes are even above what is not merged: `findSharedOps` leaves an operator that feeds
an output with the least class of the outputs that it feeds exactly when no operator above a
table and without an output computes the same as one that feeds an output. -/
theorem findSharedOps_classes_iff {mem : OpId → Operator} {s₀ s₁ s₂ s₃ : PlanState} (h₀ : Registered mem s₀)
    (h₁ : removeQuerySources s₀ = .ok () s₁) (h₂ : addSinks s₁ = .ok () s₂) (h₃ : mergeSelects s₂ = .ok () s₃)
    (hs : s₃.Reordered s) (hpos : ∀ p, s.IsOutput p → 1 ≤ s.queryClass p)
    (hlaw : ∀ o ∈ s.used, (s.ops o).body.kind ≠ .ssGen → s.LeastClass o)
    (hlevels : LevelsOrderly s.SameComputation (MAX_OPS + 1) s.dataSources s) (heven : s.EvenClasses)
    {levels : List (List Merge)} (hrun : findSharedOps true s = .ok levels t) :
    (∀ o ∈ t.used, ((s.ops o).body.kind = .ssGen → s.LeastClass o) → t.FeedsOutput o → t.LeastClass o) ↔
      ∀ x ∈ s.used, ∀ y ∈ s.used, s.AboveTable x → s.SameComputation x y → s.FeedsOutput x → s.FeedsOutput y := by
  obtain ⟨hs3,hr3⟩ := prepared_sound h₀ h₁ h₂ h₃
  obtain ⟨hS,hr⟩ := hs.sound hs3 hr3
  obtain ⟨T,hT,-⟩ := hS.merging hr
  have hsame : ∀ x ∈ s.used, ∀ y ∈ s.used, (s.SameComputation x y ↔ T x = T y) := fun x hx y hy => hT.same_iff hx hy
  have h := hS.sharedRun hT hlevels hrun
  constructor
  · intro hafter x hx y hy habove hxy
    exact h.unmixed hpos hlaw hafter hx hy habove ((hsame x hx y hy).mp hxy)
  · intro hmix o ho hgen hfo
    have hmixT : ∀ x ∈ s.used, ∀ y ∈ s.used, s.AboveTable x → T x = T y → s.FeedsOutput x → s.FeedsOutput y :=
      fun x hx y hy habove heq => hmix x hx y hy habove ((hsame x hx y hy).mpr heq)
    by_cases habove : s.AboveTable o
    · exact h.leastClass_above hpos hlaw hmixT ho habove hfo
    · have hlo : s.LeastClass o := by
        by_cases hk : (s.ops o).body.kind = .ssGen
        · exact hgen hk
        · exact hlaw o (h.lowered.used o ho) hk
      exact h.leastClass_outside hpos hlaw hmixT heven ho habove hlo hfo

def PlanState.outputsAbove (s : PlanState) (o : OpId) : List OpId :=
  markedAbove (fun a => (s.ops a).outputs) (fun p => decide (p ∈ s.used ∧ (s.ops p).body.kind = .output)) s.used.length o

/-- What an operator reaches is found within as many steps as there are operators. -/
def PlanState.Explored (s : PlanState) : Prop :=
  ∀ o ∈ s.used, ClosedUnder (fun a => (s.ops a).outputs) (closeUnder (fun a => (s.ops a).outputs) s.used.length [o])

instance (s : PlanState) : Decidable s.Explored := List.decidableBAll _ s.used

theorem PlanState.Explored.feedsOutput_iff {o : OpId} (h : s.Explored) (ho : o ∈ s.used) :
    s.FeedsOutput o ↔ s.outputsAbove o ≠ [] := by
  have hmem (p : OpId) : p ∈ s.outputsAbove o ↔ decide (p ∈ s.used ∧ (s.ops p).body.kind = .output) = true ∧
      ReflTransGen (fun a b => b ∈ (s.ops a).outputs) o p := mem_markedAbove (h o ho)
  constructor
  · rintro ⟨p,hp,hop⟩
    have hmark : p ∈ s.used ∧ (s.ops p).body.kind = .output := hp
    exact List.ne_nil_of_mem ((hmem p).mpr ⟨decide_eq_true hmark,hop⟩)
  · intro hne
    obtain ⟨p,hp⟩ := List.exists_mem_of_ne_nil _ hne
    obtain ⟨hp,hop⟩ := (hmem p).mp hp
    have hmark : p ∈ s.used ∧ (s.ops p).body.kind = .output := of_decide_eq_true hp
    exact ⟨p,hmark,hop⟩

def PlanState.classAbove (s : PlanState) (o : OpId) : ℤ :=
  labelAbove (fun a => (s.ops a).outputs) (fun p => decide (p ∈ s.used ∧ (s.ops p).body.kind = .output)) s.queryClass 0
    s.used.length o

theorem PlanState.Explored.leastOr {o : OpId} (h : s.Explored) (ho : o ∈ s.used) :
    LeastOr 0 (s.classesAbove s.queryClass o) (s.classAbove o) := by
  have hleast : LeastOr 0 (keysAbove (fun a b => b ∈ (s.ops a).outputs)
      (fun p => decide (p ∈ s.used ∧ (s.ops p).body.kind = .output) = true) s.queryClass o) (s.classAbove o) :=
    leastOr_labelAbove (h o ho)
  have hmarked : (fun p => decide (p ∈ s.used ∧ (s.ops p).body.kind = .output) = true) = s.IsOutput := by
    funext p
    rw [decide_eq_true_iff]
    rfl
  rw [hmarked] at hleast
  exact hleast

theorem PlanState.Explored.leastClass_iff {o : OpId} (h : s.Explored) (ho : o ∈ s.used) :
    s.LeastClass o ↔ s.queryClass o = s.classAbove o := by
  constructor
  · intro hl
    exact hl.unique (h.leastOr ho)
  · intro heq
    rw [PlanState.LeastClass, heq]
    exact h.leastOr ho

def PlanState.classesLawful (s : PlanState) : Bool := s.used.all fun o =>
  decide ((s.ops o).body.kind = .output → 1 ≤ s.queryClass o) && decide ((s.ops o).body.kind ≠ .ssGen → s.queryClass o = s.classAbove o)

theorem PlanState.Explored.lawful (h : s.Explored) (hlaw : s.classesLawful = true) :
    (∀ p, s.IsOutput p → 1 ≤ s.queryClass p) ∧ ∀ o ∈ s.used, (s.ops o).body.kind ≠ .ssGen → s.LeastClass o := by
  simp only [classesLawful, List.all_eq_true, Bool.and_eq_true, decide_eq_true_eq] at hlaw
  exact ⟨fun p hp => (hlaw p hp.1).1 hp.2,fun o ho hk => (h.leastClass_iff ho).mpr ((hlaw o ho).2 hk)⟩

theorem Sound.same_iff (hs : Sound s) (hr : AllRead s) (hj : JoinsFiltered s) {x y : OpId} (hx : x ∈ s.used)
    (hy : y ∈ s.used) : s.SameComputation x y ↔ compareOperators s.ops (MAX_OPS + 1) x y = .ok true := by
  obtain ⟨T,hT,hN⟩ := hs.sharing hr hj
  obtain ⟨b,hb,hiff⟩ := compareOperators_complete hT.computes.unfolding hT.comparable hx hy ((hN x hx).trans (Nat.le_succ _))
  rw [hT.toMerging.same_iff hx hy, hb, ← hiff, Except.ok.injEq]

theorem Sharing.levelsOrderly {V : List OpId} {T : OpId → ComputationTree (Label × Option OpId)}
    (hN : ∀ o ∈ V, (T o).height ≤ MAX_OPS) {same : OpId → OpId → Prop} (hsame : ∀ x ∈ V, ∀ y ∈ V, (same x y ↔ T x = T y))
    (fuel : ℕ) {cur : List OpId} (h : Sharing V T s) (hnd : cur.Nodup) (hcur : ∀ o ∈ cur, o ∈ V)
    (hc : LevelsClear fuel cur s) : LevelsOrderly same fuel cur s := by
  induction fuel generalizing s cur with
  | zero => cases cur <;> trivial
  | succ fuel ih =>
    cases cur with
    | nil => trivial
    | cons x ys =>
      obtain ⟨hclear,hnext⟩ := hc
      have hcomp := (h.clear_iff hN hcur).mp hclear
      refine ⟨fun y hy hyu l₁ z l₂ hl hzy hfirst => ?_,fun r t hr => ?_⟩
      · refine clearComputations_iff.mp hcomp y hy hyu l₁ z l₂ hl ?_ fun w hw heq => hfirst w hw ?_
        · exact (hsame z (hcur z (by simp [hl])) y (hcur y hy)).mp hzy
        · exact (hsame w (hcur w (by simp [hl,hw])) y (hcur y hy)).mpr heq
      · have hlevel := shareLevel_fits hN _ h le_rfl hnd hcur hcomp
        rw [Fits, hr] at hlevel
        rw [hr] at hnext
        exact ih hlevel.1 (nodup_firstOccurrences r.1) (fun q hq => (hlevel.2.1 q (mem_firstOccurrences.mp hq)).1) hnext

theorem Sound.levelsOrderly (hs : Sound s) (hr : AllRead s) (hj : JoinsFiltered s)
    (hc : LevelsClear (MAX_OPS + 1) s.dataSources s) :
    LevelsOrderly s.SameComputation (MAX_OPS + 1) s.dataSources s := by
  obtain ⟨T,hT,hN⟩ := hs.sharing hr hj
  exact hT.levelsOrderly hN (fun x hx y hy => hT.toMerging.same_iff hx hy) _ (hs.pool.nodup.filter _)
    (fun o ho => List.mem_of_mem_filter ho) hc

/-- The operators of the two selects are shared, and everything that feeds an output has
the least class of the outputs that it feeds. -/
theorem twoSelects_classes : ∃ levels t, findSharedOps true (preparedPlan twoSelects) = .ok levels t ∧
    ∀ o ∈ t.used, (((preparedPlan twoSelects).ops o).body.kind = .ssGen → (preparedPlan twoSelects).LeastClass o) →
      t.FeedsOutput o → t.LeastClass o := by
  have hreg : Registered blankMemory twoSelects := Registered.start.runCalls _ (by decide +kernel)
  have h1 := eq_ok_of_returns (r := removeQuerySources twoSelects) (by decide +kernel)
  have h2 := eq_ok_of_returns (r := addSinks (finalState (removeQuerySources twoSelects))) (by decide +kernel)
  have h3 := eq_ok_of_returns (r := mergeSelects (finalState (addSinks (finalState (removeQuerySources twoSelects)))))
    (by decide +kernel)
  have hreord : (preparedPlan twoSelects).Reordered (preparedPlan twoSelects) := ⟨_,fun _ => .refl _,rfl⟩
  obtain ⟨levels,t,hrun⟩ := exists_of_returns (r := findSharedOps true (preparedPlan twoSelects)) (by decide +kernel)
  obtain ⟨hs,hr⟩ := prepared_sound hreg h1 h2 h3
  have hj : JoinsFiltered (preparedPlan twoSelects) := by decide +kernel
  have hex : (preparedPlan twoSelects).Explored := by decide +kernel
  obtain ⟨hpos,hlaw⟩ := hex.lawful (by decide +kernel)
  have hsame (x y : OpId) (hx : x ∈ (preparedPlan twoSelects).used) (hy : y ∈ (preparedPlan twoSelects).used) :=
    hs.same_iff hr hj hx hy
  have heven : (preparedPlan twoSelects).EvenClasses := by
    have hall : (preparedPlan twoSelects).used.all (fun z => decide (
        z ∈ closeUnder (fun a => ((preparedPlan twoSelects).ops a).outputs) (preparedPlan twoSelects).used.length
          (preparedPlan twoSelects).dataSources ∨
        ((preparedPlan twoSelects).ops z).outputs = [] ∧ ((preparedPlan twoSelects).ops z).body.kind ≠ .output)) = true := by
      decide +kernel
    simp only [List.all_eq_true, decide_eq_true_eq] at hall
    intro z hz habove x hzx
    rcases hall z hz with hreached | ⟨houts,hk⟩
    · exact absurd (reaches_of_mem_closeUnder hreached) habove
    · rcases ReflTransGen.cases_head hzx.1 with rfl | ⟨c,⟨-,hzc⟩,-⟩
      · exact absurd hzx.2 (not_or.mpr ⟨habove,fun hout => hk hout.2⟩)
      · rw [Ports.Feeds, ports_outputs, houts] at hzc
        cases hzc
  refine ⟨levels,t,hrun,(findSharedOps_classes_iff hreg h1 h2 h3 hreord hpos hlaw
    (hs.levelsOrderly hr hj (by decide +kernel)) heven hrun).mpr fun x hx y hy _ hxy hfx => ?_⟩
  have hall : (preparedPlan twoSelects).used.all (fun x => (preparedPlan twoSelects).used.all fun y => decide (
      compareOperators (preparedPlan twoSelects).ops (MAX_OPS + 1) x y = .ok true →
      (preparedPlan twoSelects).outputsAbove x ≠ [] → (preparedPlan twoSelects).outputsAbove y ≠ [])) = true := by
    decide +kernel
  simp only [List.all_eq_true, decide_eq_true_eq] at hall
  exact (hex.feedsOutput_iff hy).mpr (hall x hx y hy ((hsame x y hx hy).mp hxy) ((hex.feedsOutput_iff hx).mp hfx))

/-- An operator with a class that is not the least of the outputs that it feeds. -/
theorem PlanState.Explored.exists_unclassed (h : s.Explored) (k : ℤ) (hany : (s.used.any fun o =>
      decide ((s.ops o).body.kind ≠ .ssGen ∧ s.outputsAbove o ≠ [] ∧ s.queryClass o = k ∧ s.classAbove o ≠ k)) = true) :
    ∃ o ∈ s.used, (s.ops o).body.kind ≠ .ssGen ∧ s.FeedsOutput o ∧ s.queryClass o = k ∧ ¬ s.LeastClass o := by
  simp only [List.any_eq_true, decide_eq_true_eq] at hany
  obtain ⟨o,ho,hk,hfeeds,hclass,habove⟩ := hany
  refine ⟨o,ho,hk,(h.feedsOutput_iff ho).mpr hfeeds,hclass,fun hl => habove ?_⟩
  rw [← (h.leastClass_iff ho).mp hl]
  exact hclass

/-- A query without an output that computes the same as one with an output. -/
def unusedSelect : PlanState := planAfter
  [.addBaseTable streamAndView 1, .addLogicalQueryPlan blankUninit 0 (positiveRows 1) false,
    .addLogicalQueryPlan blankUninit 1 (positiveRows 1) true]

/-- The select of the unused query survives, and it feeds the output without a class. -/
theorem unusedSelect_unclassed : ∃ s₁ s₂ s₃ levels t, Registered blankMemory unusedSelect ∧
    removeQuerySources unusedSelect = .ok () s₁ ∧ addSinks s₁ = .ok () s₂ ∧ mergeSelects s₂ = .ok () s₃ ∧
    (∀ p, s₃.IsOutput p → 1 ≤ s₃.queryClass p) ∧
    (∀ o ∈ s₃.used, (s₃.ops o).body.kind ≠ .ssGen → s₃.LeastClass o) ∧
    findSharedOps true s₃ = .ok levels t ∧
    ∃ o ∈ t.used, (t.ops o).body.kind ≠ .ssGen ∧ t.FeedsOutput o ∧ t.queryClass o = 0 ∧ ¬ t.LeastClass o := by
  obtain ⟨s₁,s₂,h1,h2,h3⟩ := preparedPlan_passes (s := unusedSelect) (by decide +kernel)
  have hex : (preparedPlan unusedSelect).Explored := by decide +kernel
  obtain ⟨hpos,hlaw⟩ := hex.lawful (by decide +kernel)
  have hext : (finalState (findSharedOps true (preparedPlan unusedSelect))).Explored := by decide +kernel
  have hbad := hext.exists_unclassed 0 (by decide +kernel)
  obtain ⟨levels,t,hrun⟩ := exists_of_returns (r := findSharedOps true (preparedPlan unusedSelect)) (by decide +kernel)
  rw [hrun, finalState_ok] at hbad
  exact ⟨s₁,s₂,_,levels,t,Registered.start.runCalls _ (by decide +kernel),h1,h2,h3,hpos,hlaw,hrun,hbad⟩

def systemInView : Logical.Plan :=
  .node (.project [.attrRef .int (.named 0 0 0)]) [.named 0 0 0] false
    [.node (.select ⟨.eq,.attrRef .int (.named 0 0 0),.attrRef .int (.named 1 2 0)⟩) [.named 0 0 0, .named 1 2 0] false
      [.node .cross [.named 0 0 0, .named 1 2 0] false
        [positiveRows 0,.node (.relnSource 1 2) [.named 1 2 0] false []]]]

def systemJoins : PlanState := planAfter
  [.addBaseTable streamAndView 1, .addLogicalQueryPlan blankUninit 0 windowOfStream false, .map streamAndView 0 2,
    .setQueryClass 1, .addLogicalQueryPlan blankUninit 1 systemInView true,
    .setQueryClass 2, .addLogicalQueryPlan blankUninit 2 systemInView true]

/-- The joins are merged and the selects below them are not: that of the second query keeps
its class, and feeds the output of the first one. -/
theorem systemJoins_unclassed : ∃ s₁ s₂ s₃ levels t, Registered blankMemory systemJoins ∧
    removeQuerySources systemJoins = .ok () s₁ ∧ addSinks s₁ = .ok () s₂ ∧ mergeSelects s₂ = .ok () s₃ ∧
    (∀ p, s₃.IsOutput p → 1 ≤ s₃.queryClass p) ∧
    (∀ o ∈ s₃.used, (s₃.ops o).body.kind ≠ .ssGen → s₃.LeastClass o) ∧
    LevelsOrderly s₃.SameComputation (MAX_OPS + 1) s₃.dataSources s₃ ∧
    (∀ x ∈ s₃.used, ∀ y ∈ s₃.used, s₃.AboveTable x → s₃.SameComputation x y → s₃.FeedsOutput x → s₃.FeedsOutput y) ∧
    findSharedOps true s₃ = .ok levels t ∧
    ∃ o ∈ t.used, (t.ops o).body.kind ≠ .ssGen ∧ t.FeedsOutput o ∧ t.queryClass o = 2 ∧ ¬ t.LeastClass o := by
  have hreg : Registered blankMemory systemJoins := Registered.start.runCalls _ (by decide +kernel)
  obtain ⟨s₁,s₂,h1,h2,h3⟩ := preparedPlan_passes (s := systemJoins) (by decide +kernel)
  obtain ⟨hs,hr⟩ := prepared_sound hreg h1 h2 h3
  have hj : JoinsFiltered (preparedPlan systemJoins) := by decide +kernel
  have hex : (preparedPlan systemJoins).Explored := by decide +kernel
  obtain ⟨hpos,hlaw⟩ := hex.lawful (by decide +kernel)
  have hall : (preparedPlan systemJoins).used.all (fun x => decide ((preparedPlan systemJoins).outputsAbove x ≠ [])) = true := by
    decide +kernel
  simp only [List.all_eq_true, decide_eq_true_eq] at hall
  have hext : (finalState (findSharedOps true (preparedPlan systemJoins))).Explored := by decide +kernel
  have hbad := hext.exists_unclassed 2 (by decide +kernel)
  obtain ⟨levels,t,hrun⟩ := exists_of_returns (r := findSharedOps true (preparedPlan systemJoins)) (by decide +kernel)
  rw [hrun, finalState_ok] at hbad
  refine ⟨s₁,s₂,_,levels,t,hreg,h1,h2,h3,hpos,hlaw,hs.levelsOrderly hr hj (by decide +kernel),?_,hrun,hbad⟩
  exact fun x hx y hy _ _ _ => (hex.feedsOutput_iff hy).mpr (hall y hy)

end AqsiosCoordinator.Physical
