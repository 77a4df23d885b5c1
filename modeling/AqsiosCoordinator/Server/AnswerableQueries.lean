import AqsiosCoordinator.Querygen.GroundedQueries
import AqsiosCoordinator.Querygen.QueryPlans
import AqsiosCoordinator.Server.QueryResults

/-! # Which queries can be answered

A query that the interpreter accepts can be answered exactly when it is grounded and does not
read the first table, which leads to the system stream.
-/
namespace AqsiosCoordinator.Logical
open Common Foundation Foundation.Outcome Metadata
variable {tableMgr : TableManager} {query : Semantic.Query} {u v : Usage}

theorem compatible_of_ne {kind : Kind} {inputs : List (List Attr)} (h : kind ≠ .union ∧ kind ≠ .except) : kind.Compatible inputs :=
  fun hk => absurd hk (not_or.mpr h)

theorem compatible_single {kind : Kind} {attrs : List Attr} : kind.Compatible [attrs] := by
  intro _ l hl r hr
  rw [List.mem_singleton.mp hl, List.mem_singleton.mp hr]

namespace Plan
variable {p q : Plan}

def Compatible : Plan → Prop := Everywhere fun kind _ inputs => kind.Compatible inputs

theorem derivedCompatible_handedOn : HandedOn fun kind outAttrs inputs =>
    (kind.Derives tableMgr inputs outAttrs ∧ (kind.IsCross → 2 ≤ inputs.length)) ∧ kind.Compatible inputs := by
  have hderived : HandedOn fun kind outAttrs inputs =>
      kind.Derives tableMgr inputs outAttrs ∧ (kind.IsCross → 2 ≤ inputs.length) := derived_handedOn
  refine ⟨⟨fun {kind outAttrs inputs} hk => ?_⟩,?_,?_,?_⟩
  · rw [hderived.copied hk]
    refine and_iff_left (compatible_of_ne ?_)
    constructor
    · rintro rfl
      cases hk
    · rintro rfl
      cases hk
  · exact fun hk h new => ⟨hderived.own hk h.1 new,compatible_single⟩
  · exact fun h => hderived.single h.1
  · intro outAttrs inputs i attrs h hi
    obtain ⟨hcross,hne⟩ := hderived.streamCross h.1 hi
    exact ⟨⟨hcross,compatible_of_ne (by simp)⟩,hne⟩

/-- No transformation adds or changes a set operation. -/
theorem genLogPlan_compatible (h : genLogPlan tableMgr query u = .ok q v) (hgenerated : ∀ p, Generated tableMgr query p → Compatible p) :
    Compatible q := by
  obtain ⟨p,p₂,p₃,p₄,u₁,u₂,u₃,u₄,hgen,hstream,hcross,hstreamCross,hpush⟩ := genLogPlan_steps h
  have hp := ensures_genPlan_eq _ _ _ hgen p rfl
  have hd := Everywhere.and (hp.everywhere derived_established (ensures_genPlan_from _ _ _ hgen)) (hgenerated p hp)
  have hboth := (derivedCompatible_handedOn.ensures_tStreamCross (derivedCompatible_handedOn.toCopying.tRstreamNow hd) _ _ _ hstream).2
  obtain ⟨hd₂,hs₂,-⟩ := prepared_derived hgen hstream
  have hcompatible : Compatible p₂ := Everywhere.imp hboth fun _ _ _ h => h.2
  obtain ⟨hd₄,hb₄,h₄⟩ := made_binary (Everywhere.tRemoveProject hd₂).1 hs₂.tRemoveProject hcross hstreamCross
  have hremoved : Compatible (tRemoveProject p₂) := (Everywhere.tRemoveProject hcompatible).1
  have hcompatible₄ : Compatible p₄ := by
    refine (h₄.everywhere _ fun kind _ inputs hk => compatible_of_ne ?_).mpr hremoved
    rcases hk with rfl | rfl <;> simp
  have hall₄ := Everywhere.and (derivedBinary_of hd₄ hb₄) hcompatible₄
  have hselect (pred : BExpr) (outAttrs : List Attr) (inputs : List (List Attr)) :
      ((Kind.select pred).Derives tableMgr inputs outAttrs ∧ ((Kind.select pred).IsCross → inputs.length = 2)) ∧
        (Kind.select pred).Compatible inputs ↔ inputs = [outAttrs] := by
    rw [and_iff_left (compatible_of_ne (by simp))]
    exact derivedBinary_select pred outAttrs inputs
  obtain ⟨passed,i,c,rfl,rfl,hpushed⟩ := tPushSelect_pushed hselect hall₄ hb₄ hpush
  obtain ⟨hall,hsame⟩ := hpushed.everywhere hselect hall₄.of_rebuild
  exact Everywhere.imp (Everywhere.replace (forall₂_unchanged passed) hall₄ hall hsame) fun _ _ _ h => h.2

theorem compatible_unaryNode {kind : Kind} {outAttrs : List Attr} (h : Compatible p) : Compatible (unaryNode kind outAttrs p) := by
  refine .node compatible_single fun i hi => ?_
  rwa [List.mem_singleton.mp hi]

theorem compatible_sourcePlan (v tableId : ℕ) : Compatible (sourcePlan tableMgr v tableId) := by
  unfold sourcePlan
  split
  · exact .node (compatible_of_ne (by simp)) (by simp)
  · exact .node (compatible_of_ne (by simp)) (by simp)

theorem compatible_branch (t v : ℕ) : Compatible (branch tableMgr query t v) := by
  have hsource : Compatible (sourcePlan tableMgr v (query.refTables v)) := compatible_sourcePlan v (query.refTables v)
  unfold branch
  dsimp only
  split
  · cases query.winSpec t with
    | unbounded => exact hsource
    | _ => exact compatible_unaryNode hsource
  · exact hsource

theorem compatible_stack {kinds : List Kind} (h : Compatible p) : Compatible (stack kinds p) := by
  induction kinds generalizing p with
  | nil => exact h
  | cons kind kinds ih => exact ih (compatible_unaryNode h)

/-- The tables of a set operation have the same number of attributes. -/
theorem Generated.compatible (h : Generated tableMgr query p) (hq : query.WellFormed tableMgr) : Compatible p := by
  have hr2s {p : Plan} (hp : Compatible p) : Compatible (r2sPlan query p) := by
    unfold r2sPlan
    split
    · exact hp
    · exact compatible_unaryNode hp
  rcases h with ⟨-,aggrs,-,rfl⟩ | ⟨hkind,rfl⟩
  · rw [sfwPlan_eq]
    refine hr2s (compatible_stack ?_)
    have hbranches : ∀ b ∈ branches tableMgr query, Compatible b := by
      rw [branches, List.forall_mem_map]
      exact fun x _ => compatible_branch x.2 x.1
    unfold joinPlan
    split
    · rename_i b hb
      exact hbranches b (by rw [hb]; exact List.mem_singleton_self b)
    · exact .node (compatible_of_ne (by simp)) hbranches
  · refine hr2s (.node (fun _ => ?_) fun i hi => ?_)
    · have hlen : ∀ attrs ∈ [sourcePlan tableMgr 0 (query.refTables 0), sourcePlan tableMgr 0 (query.refTables 1)].map Plan.outAttrs,
          attrs.length = tableMgr.getNumAttrs (query.refTables 0) := by
        simp [source_outAttrs,tableAttrs,hq.tables hkind]
      exact fun l hl r hr => (hlen l hl).trans (hlen r hr).symm
    · rcases List.mem_pair.mp hi with rfl | rfl
      · exact compatible_sourcePlan _ _
      · exact compatible_sourcePlan _ _

end Plan
end AqsiosCoordinator.Logical

namespace AqsiosCoordinator.Server
open Common Foundation Foundation.Outcome Metadata

/-- A query that the interpreter accepts can be answered when it reads no table that leads to the system stream and is grounded. -/
theorem answerable_of_grounded {tableMgr : TableManager} {query : Semantic.Query} {parseTree : Parser.ContQuery} {n n' : ℕ}
    (h : Semantic.interpretQuery tableMgr parseTree n = .ok query n') (htables : ∀ v ∈ query.sources, query.refTables v ≠ SysStream.SS_ID)
    (hgrounded : query.kind = .sfwQuery → query.Grounded tableMgr) : Answerable tableMgr query := by
  refine ⟨fun v hv => ⟨Semantic.interpretQuery_tables h v hv,htables v hv⟩,fun plan usage hplan => ?_⟩
  have hq := Semantic.interpretQuery_wellFormed h
  constructor
  · exact (Logical.Plan.genLogPlan_references_iff hq (Semantic.interpretQuery_scoped h) hplan).mpr hgrounded
  · exact Logical.Plan.genLogPlan_compatible hplan fun p hp => hp.compatible hq

end AqsiosCoordinator.Server
