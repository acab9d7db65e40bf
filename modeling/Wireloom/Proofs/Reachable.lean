import Wireloom.Circuit.Condition
import Wireloom.Proofs.Chaining
import Wireloom.Proofs.Outcome

/-!
# `Circuit.Labelled`, `Circuit.Reachable` — the circuits that can be made

`Reachable` has a constructor for each way to make a circuit: the two to start from, and one for every call that
changes a circuit or makes one from others. All of them are well-formed.
-/

namespace Wireloom

/-- A vertex of an opgroup holds an operation of the group's signature. -/
def Node.Labelled (names : SortedMap String Signature) (n : Node) : Prop :=
  ∀ name, n.opgroup = some name → ∃ op, n.kind = .op op ∧ names.get? name = some op.signature

namespace Graph

variable {names names' : SortedMap String Signature} {g g' : Graph} {v : Vertex}

/-- **The vertices of an opgroup hold operations of the group's signature.** -/
def Labelled (names : SortedMap String Signature) (g : Graph) : Prop :=
  ∀ v n, g.vertices.get? v = some n → n.Labelled names

/-! ## Edits of a graph -/

section

variable (h : g.Labelled names)
include h

lemma Labelled.of_vertices (hvert : g'.vertices = g.vertices) : g'.Labelled names :=
  fun v n hn => h v n (hvert ▸ hn)

lemma Labelled.mono (hnames : ∀ {name s}, names.get? name = some s → names'.get? name = some s) :
    g.Labelled names' := fun v n hn name hname =>
  (h v n hn name hname).imp fun _ hop => ⟨hop.1, hnames hop.2⟩

lemma Labelled.withVertex {kind : NodeKind} {og : Option String}
    (hnew : Node.Labelled names ⟨kind, og, g.nextSequence⟩) : (g.withVertex kind og).Labelled names := by
  intro v n hn
  unfold Graph.withVertex at hn
  by_cases hv : v = g.vertices.nextHandle
  · rw [hv, SlotStore.get?_insert_same] at hn
    cases hn
    exact hnew
  · rw [SlotStore.get?_insert_other _ hv] at hn
    exact h v n hn

lemma Labelled.withoutVertex : (g.withoutVertex v).Labelled names := by
  intro w n hn
  exact h w n (SlotStore.get?_release_eq_some_iff.mp hn).2

/-- Something else may stand at a vertex without an opgroup, and another operation of the same signature anywhere. -/
lemma Labelled.withKind {k k' : NodeKind} (hk : g.kind? v = some k)
    (hkind : k.isBoundary ∨ ∃ op op', k = .op op ∧ k' = .op op' ∧ op'.signature = op.signature) :
    (g.withKind v k').Labelled names := by
  intro w n hn name hname
  unfold Graph.withKind at hn
  rw [SlotStore.get?_update] at hn
  by_cases hw : w = v
  · rw [if_pos hw, hw] at hn
    obtain ⟨n0, hn0, rfl⟩ := Option.map_eq_some_iff.mp hn
    obtain ⟨op, hop, hsig⟩ := h v n0 hn0 name hname
    have hk0 : k = n0.kind := by
      unfold Graph.kind? at hk
      rw [hn0] at hk
      exact (Option.some.inj hk).symm
    rw [hop] at hk0
    subst hk0
    rcases hkind with hb | ⟨_, op2, heq, rfl, hsame⟩
    · cases hb
    · cases heq
      exact ⟨op2, rfl, hsame ▸ hsig⟩
  · rw [if_neg hw] at hn
    exact h w n hn name hname

end

lemma prunable_labelled (names : SortedMap String Signature) : Prunable (Labelled names) :=
  ⟨fun h => h.withoutVertex, fun h hvert _ => h.of_vertices hvert⟩

lemma addVertex_labelled {kind : NodeKind} {og : Option String}
    (hnew : ∀ seq, Node.Labelled names ⟨kind, og, seq⟩) : Keeps (Labelled names) (addVertex kind og) := by
  intro g v g' h hrun
  cases hrun
  exact h.withVertex (hnew _)

lemma Hosts.labelled {guest : Graph} {ι : Vertex → Vertex} {becomes : Node → NodeKind → Option String → Prop}
    (h : Hosts g guest g' ι becomes) (hg : g.Labelled names)
    (hnew : ∀ v n k og seq, guest.vertices.get? v = some n → becomes n k og → Node.Labelled names ⟨k, og, seq⟩) :
    g'.Labelled names := by
  intro w n hn
  rcases h.cases hn with hold | ⟨v, hv, rfl⟩
  · exact hg w n hold
  · obtain ⟨n0, hn0⟩ := live_iff.mp hv
    obtain ⟨k, og, seq, hget, hbecomes⟩ := h.new hn0
    cases Option.some.inj (hn.symm.trans hget)
    exact hnew v n0 k og seq hn0 hbecomes

end Graph

namespace Circuit

open Wireloom.Graph SortedMap Option SlotStore

variable {c c' r guest : Circuit} {unit unitG : Pin → UnitId} {hole : Hole} {policy : OpgroupPolicy} {g : Graph}
  {ι : Vertex → Vertex} {u : UnitId} {v : Vertex} {a : Unit} {reverseOp : Op → Except CircuitError Op} {α : Type}

/-- **The vertices of an opgroup hold operations of the signature that the circuit notes for the group.** -/
def Labelled (c : Circuit) : Prop := c.graph.Labelled c.opgroups

lemma onGraph_labelled {edit : Graph.Edit α} (h : ∀ names, Keeps (Graph.Labelled names) edit) :
    Keeps Labelled (onGraph edit) := by
  intro c a c' hc hrun
  obtain ⟨g, hg, rfl⟩ := onGraph_eq_ok.mp hrun
  exact h c.opgroups _ _ _ hc hg

lemma removeVertex_labelled (v : Vertex) (rewiring : Rewiring) (deletion : Deletion) :
    Keeps Labelled (onGraph (removeVertex v rewiring deletion)) :=
  onGraph_labelled fun names => removeVertex_prunes (prunable_labelled names) v rewiring deletion

lemma addLink_labelled (l : Link) : Keeps Labelled (onGraph (addLink l)) :=
  onGraph_labelled fun names => addLink_prunes (prunable_labelled names) l

lemma addPhase_labelled (a : Angle) : Keeps Labelled (addPhase a) := Keeps.modify fun _ => id

/-! ## Units -/

lemma insertUnit_labelled (h : c.Labelled) (u : UnitId) : (c.insertUnit u).Labelled := by
  have hnone : ∀ kind seq, Node.Labelled c.opgroups ⟨kind, none, seq⟩ := fun _ _ _ hname => by cases hname
  exact (Graph.Labelled.withVertex (Graph.Labelled.withVertex h (hnone _ _)) (hnone _ _)).of_vertices rfl

lemma addUnit_labelled (u : UnitId) : Keeps Labelled (addUnit u) := by
  exact Keeps.get.bind fun _ => .when (.throw _) (ask_keeps.bind fun _ => Keeps.modify fun _ h => insertUnit_labelled h u)

lemma Side.mark_labelled {s : Side} (hc : c.WellFormed) (h : c.Labelled) (hrun : s.mark u c = .ok a c') : c'.Labelled := by
  obtain ⟨_, _, hu, rfl⟩ := mark_eq_ok hrun
  obtain ⟨k, hk, hfits⟩ := hc.exists_end s hu
  exact Graph.Labelled.withKind h hk (.inl (isBoundary_of_fits hfits))

lemma renameUnits_labelled (ρ : Renaming) : Keeps Labelled (renameUnits ρ) := by
  intro c a c' h hrun
  obtain ⟨_, _, hrest⟩ := bind_ok_iff.mp (revise_eq_ok.mp hrun)
  obtain ⟨_, _, hrest⟩ := bind_ok_iff.mp hrest
  cases hrest
  exact h

lemma flattenRegisters_labelled : Keeps Labelled flattenRegisters :=
  Keeps.get.bind fun _ => (renameUnits_labelled _).bind fun _ => Keeps.pure _

lemma removeBlankWires_labelled : Keeps Labelled removeBlankWires := by
  refine ask_keeps.bind fun blank => (Keeps.forM fun x _ => ?_).bind fun _ => Keeps.pure _
  refine Keeps.bind (Keeps.modify fun _ => id) fun _ => ?_
  exact (removeVertex_labelled _ _ _).bind fun _ => removeVertex_labelled _ _ _

lemma bindSymbols_labelled (h : c.Labelled) (σ : Binding) : (c.bindSymbols σ).Labelled := by
  intro v n hn name hname
  rw [get?_bindSymbols] at hn
  obtain ⟨n0, hn0, rfl⟩ := map_eq_some_iff.mp hn
  obtain ⟨op, hop, hsig⟩ := h v n0 hn0 name hname
  refine ⟨(op.bind? σ).getD op, by rw [hop]; rfl, ?_⟩
  cases hbind : op.bind? σ with
  | none => exact hsig
  | some op' =>
    rw [getD_some, Op.signature_bind? hbind]
    exact hsig

/-! ## Operations -/

lemma addOp_labelled (op : Op) (args : List UnitId) (og : Option String) : Keeps Labelled (addOp op args og) := by
  intro c v c' h hrun
  obtain ⟨_, _, hrest⟩ := bind_ask_eq_ok.mp hrun
  obtain ⟨_, c2, hjoin, hrest⟩ := bind_eq_ok.mp hrest
  obtain ⟨hjoins, rfl⟩ := joinOpgroup_eq_ok hjoin
  obtain ⟨w, c3, hadd, hrest⟩ := bind_eq_ok.mp hrest
  have h2 : c.graph.Labelled (withOpgroup c.opgroups op og) := Graph.Labelled.mono h fun {name s} hs => by
    rw [get?_withOpgroup]
    split
    · next hname => rw [hjoins name s hname hs]
    · exact hs
  have h3 : c3.Labelled := by
    obtain ⟨g, hvertex, rfl⟩ := onGraph_eq_ok.mp hadd
    refine addVertex_labelled (fun _ name hname => ⟨op, rfl, ?_⟩) _ _ _ h2 hvertex
    exact (get?_withOpgroup _ _).trans (if_pos hname)
  refine Keeps.bind (Keeps.forM fun x _ => ?_) (fun _ => Keeps.pure _) _ _ _ h3 hrest
  exact wirePin_of_keeps addLink_labelled
    (fun e => onGraph_labelled fun names => removeEdge_prunes (prunable_labelled names) e) _ _ _

lemma removeOp_labelled (v : Vertex) : Keeps Labelled (removeOp v) :=
  ask_keeps.bind fun _ => .when (.throw _) (removeVertex_labelled _ _ _)

/-! ## Circuits that come in -/

lemma labelled_of_copy (h : c.Labelled) (hr : r.Labelled) (hcopy : IsCopy c.graph r.graph g ι policy.keepsNames)
    (hcheck : policy.check c.opgroups r.opgroups = .ok ()) :
    g.Labelled (mergedOpgroups policy c.opgroups r.opgroups) := by
  unfold mergedOpgroups
  refine hcopy.toHosts.labelled (h.mono fun {name s} hs => ?_) ?_
  · split
    · rw [get?_unionLeft, hs]
      rfl
    · exact hs
  · rintro v n k _ _ hn ⟨rfl, rfl⟩ name hname
    split at hname
    · next hkeep =>
      obtain ⟨op, hop, hsig⟩ := hr v n hn name hname
      refine ⟨op, hop, ?_⟩
      rw [if_pos hkeep, get?_unionLeft]
      cases hs : c.opgroups.get? name with
      | none => exact hsig
      | some s => rw [OpgroupPolicy.agree_of_check hkeep hcheck hs hsig]; rfl
    · cases hname

lemma Chained.labelled (hch : Chained ι c guest c') (hguest : guest.WellFormed) (h : c.Labelled)
    (hlabels : guest.Labelled) (hagree : c.opgroups.Agree guest.opgroups)
    (hopgroups : c'.opgroups = c.opgroups.unionLeft guest.opgroups) : c'.Labelled := by
  intro w n hn name hname
  rw [hopgroups, get?_unionLeft]
  rcases hch.cases (live_of_get? hn) with ⟨hw, hend⟩ | ⟨v, hv, hspliced, rfl⟩
  · obtain ⟨n0, hn0⟩ := live_iff.mp hw
    cases mem_unique hn (hch.host_node hn0 hend)
    obtain ⟨op, hop, hsig⟩ := h w n hn0 name hname
    exact ⟨op, hop, by rw [hsig]; rfl⟩
  · obtain ⟨n0, hn0⟩ := live_iff.mp hv
    obtain ⟨_, hn', hog, hkind, _⟩ := hch.guest_node hn0 hspliced
    cases mem_unique hn hn'
    obtain ⟨op, hop, hsig⟩ := hlabels v n0 hn0 name (hog ▸ hname)
    -- where a unit of the guest starts stands no operation
    have hstart : ¬ c.WasStart guest v := fun ⟨u, _, next, _, hu, heq⟩ =>
      hguest.wired.not_isInput_of_op (by rw [kind?, hn0, map_some, hop]) ⟨u, next, hu, heq⟩
    refine ⟨op, (hkind hstart).trans hop, ?_⟩
    cases hs : c.opgroups.get? name with
    | none => exact hsig
    | some s => rw [hagree hs hsig]; rfl

lemma appendRenamed_labelled (hguest : guest.WellFormed) (hlabels : guest.Labelled) (ρ : Renaming) (hc : c.WellFormed)
    (h : c.Labelled) (hrun : appendRenamed guest ρ c = .ok a c') : c'.Labelled := by
  obtain ⟨_, _, _, hrename, hfits, happ⟩ := appendRenamed_eq_ok hc hguest hrun
  exact happ.labelled (rename_wellFormed hguest hrename) h
    (renameUnits_labelled ρ _ _ _ hlabels (revise_eq_ok.mpr hrename)) hfits.opgroups happ.opgroups

lemma parallel_labelled (hc : c.WellFormed) (h : c.Labelled) (hguest : guest.WellFormed) (hlabels : guest.Labelled)
    (hrun : c.parallel guest = .ok c') : c'.Labelled := by
  obtain ⟨a, hrun⟩ := edited_eq_ok.mp hrun
  obtain ⟨_, d, hmerge, hrest⟩ := bind_eq_ok.mp hrun
  obtain ⟨hcheck, _, _, hmerged⟩ := mergeIn_eq_ok hc hguest hmerge
  refine addPhase_labelled _ _ _ _ ?_ hrest
  rw [hmerged.others]
  exact labelled_of_copy h hlabels hmerged.isCopy hcheck

lemma reversed_labelled {phase : Angle} (hop : KeepsSignature reverseOp) (hc : c.WellFormed) (h : c.Labelled)
    (hrun : c.reversed reverseOp phase = .ok c') : c'.Labelled := by
  obtain ⟨ι, hrev⟩ := reversed_eq_ok hop hc hrun
  intro w n' hn' name hname
  obtain ⟨v, n, hn, rfl, hkind, hog⟩ := hrev.exists_node hn'
  obtain ⟨op, hop', hsig⟩ := h v n hn name (hog ▸ hname)
  rw [hop'] at hkind
  obtain ⟨op', hrev', hkind'⟩ := except_map_eq_ok.mp hkind
  exact ⟨op', hkind'.symm, by rw [hrev.opgroups, hop op op' hrev', hsig]⟩

/-! ## Substitution -/

lemma Substituted.labelled (hs : Substituted c r hole policy c' unit g ι) (h : c.Labelled) (hr : r.Labelled)
    (hcheck : policy.check c.opgroups r.opgroups = .ok ()) : c'.Labelled := by
  have hcopied := labelled_of_copy h hr hs.copy hcheck
  have hnames : c'.opgroups = mergedOpgroups policy c.opgroups r.opgroups := by rw [hs.others]
  intro v n hn name hname
  rw [hnames]
  obtain ⟨n0, hn0, rfl⟩ := hs.get?_cases hn
  obtain ⟨op, hop, hsig⟩ := hcopied v n0 hn0 name hname
  refine ⟨op, ?_, hsig⟩
  have hk : g.kind? v = some (.op op) := by
    unfold kind?
    rw [hn0, ← hop]
    rfl
  rw [hop]
  exact touched_op hk

/-! # `Circuit.Coherent` — well-formed, with opgroups to rely on -/

open List

variable {n : Node} {name : String}

/-- **A well-formed circuit whose opgroups are labelled.** -/
structure Coherent (c : Circuit) : Prop where
  wellFormed : c.WellFormed
  labelled : c.Labelled

lemma coherent_empty (hgraph : c.graph = {}) (hboundary : c.boundary = .empty) : c.Coherent where
  wellFormed := wellFormed_empty hgraph hboundary
  labelled v n hn := by rw [hgraph] at hn; cases hn

lemma coherent_keeps {edit : Edit α} (h : Keeps WellFormed edit)
    (hl : ∀ c a c', c.WellFormed → c.Labelled → edit c = .ok a c' → c'.Labelled) : Keeps Coherent edit :=
  fun c a c' hc hrun => ⟨h c a c' hc.wellFormed hrun, hl c a c' hc.wellFormed hc.labelled hrun⟩

lemma addUnit_coherent (u : UnitId) : Keeps Coherent (addUnit u) :=
  coherent_keeps (addUnit_keeps u) fun _ _ _ _ h hrun => addUnit_labelled u _ _ _ h hrun

lemma Side.mark_coherent (s : Side) (u : UnitId) : Keeps Coherent (s.mark u) :=
  coherent_keeps (s.mark_keeps u) fun _ _ _ hc h hrun => mark_labelled hc h hrun

lemma addOp_coherent (op : Op) (args : List UnitId) (og : Option String) : Keeps Coherent (addOp op args og) :=
  coherent_keeps (addOp_keeps op args og) fun _ _ _ _ h hrun => addOp_labelled op args og _ _ _ h hrun

/-! ## Circuits in the place of operations -/

lemma substitute_coherent (hc : c.Coherent) (hr : r.Coherent) (hhole : ∀ {unit}, c.Wired unit → c.IsHole unit hole)
    (hconvex : Net.Convex c.graph.net.Before fun v => hole.interior.contains v)
    (hrun : substitute r hole .delete policy c = .ok a c') : c'.Coherent := by
  have hw := hc.wellFormed.wired
  have hrw := hr.wellFormed.wired
  obtain ⟨hsuits, hcheck, _, g, _, _, hunit, hs⟩ := substitute_eq_ok hw hrw (hhole hw) hrun
  exact ⟨hs.wellFormed hw hrw hsuits hunit hconvex, hs.labelled hc.labelled hr.labelled hcheck⟩

lemma substituteVertex_coherent (hr : r.Coherent) (v : Vertex) (policy : OpgroupPolicy) :
    Keeps Coherent (substituteVertex r v .delete policy) := by
  intro c a c' hc hrun
  obtain ⟨_, _, _, _, _, _, hpolicy, hs, hwell⟩ := substituteVertex_eq_ok hc.wellFormed hr.wellFormed hrun
  exact ⟨hwell, hs.labelled hc.labelled hr.labelled hpolicy⟩

lemma substituteAll_coherent (hr : r.Coherent) (op : Op) : Keeps Coherent (substituteAll r op) :=
  Keeps.get.bind fun _ => (Keeps.forM fun v _ => substituteVertex_coherent hr v .merge).bind fun _ => Keeps.pure _

lemma opAt_eq_ok {op : Op} (h : c.opAt v = .ok op) : c.graph.kind? v = some (.op op) := by
  obtain ⟨k, hk, h⟩ := bind_ok_iff.mp h
  cases k with
  | op o => cases h; exact kind_eq_ok.mp hk
  | input _ => cases h
  | output _ => cases h
  | create => cases h
  | discard => cases h

lemma setOp_coherent {op op' : Op} (hc : c.Coherent) (hk : c.graph.kind? v = some (.op op))
    (hsig : op'.signature = op.signature) (hrun : onGraph (setKind v (.op op')) c = .ok a c') : c'.Coherent := by
  obtain ⟨g, hset, rfl⟩ := onGraph_eq_ok.mp hrun
  obtain ⟨_, rfl⟩ := setKind_eq_ok hset
  exact ⟨(hc.wellFormed.wired.withKind hk (alike_op hsig)).wellFormed,
    Graph.Labelled.withKind hc.labelled hk (.inr ⟨op, op', rfl, rfl, hsig⟩)⟩

lemma substituteOp_coherent (op : Op) (v : Vertex) : Keeps Coherent (substituteOp op v) := by
  intro c a c' hc hrun
  obtain ⟨_, hop, hrest⟩ := bind_ask_eq_ok.mp hrun
  split at hrest
  · cases hrest
  · next hsig => exact setOp_coherent hc (opAt_eq_ok hop) (not_not.mp hsig).symm hrest

/-! ## Opgroups -/

lemma mem_opgroupVertices (hc : c.WellFormed) :
    v ∈ c.opgroupVertices name ↔ ∃ n, c.graph.vertices.get? v = some n ∧ n.opgroup = some name := by
  unfold opgroupVertices
  rw [List.mem_map]
  constructor
  · rintro ⟨⟨v, n⟩, hmem, rfl⟩
    obtain ⟨hmem, hn⟩ := mem_filter.mp hmem
    exact ⟨n, (mem_bySequence hc.valid).mp hmem, of_decide_eq_true hn⟩
  · rintro ⟨n, hn, hname⟩
    exact ⟨(v, n), mem_filter.mpr ⟨(mem_bySequence hc.valid).mpr hn, decide_eq_true hname⟩, rfl⟩

lemma Substituted.opgroup_cases (hs : Substituted c r hole policy c' unit g ι) (hr : r.Labelled)
    (hnew : r.opgroups.get? name = none) (hn : c'.graph.vertices.get? v = some n) (hname : n.opgroup = some name) :
    (∃ n0, c.graph.vertices.get? v = some n0 ∧ n0.opgroup = some name) ∧ ¬ hole.interior.contains v := by
  constructor
  · obtain ⟨n0, hn0, rfl⟩ := hs.get?_cases hn
    rcases hs.copy.cases hn0 with hold | ⟨w, hw, rfl⟩
    · exact ⟨n0, hold, hname⟩
    · obtain ⟨nw, hnw⟩ := Graph.live_iff.mp hw
      obtain ⟨k, _, _, hget, _, rfl⟩ := hs.copy.new hnw
      cases Option.mem_unique hn0 hget
      split at hname
      · obtain ⟨_, _, hsig⟩ := hr w nw hnw name hname
        rw [hnew] at hsig
        cases hsig
      · cases hname
  · intro hin
    rw [hs.cleared.gone (.inr (.inl hin))] at hn
    cases hn

lemma substituteGroup_eq_ok {found : Bool} (hrun : substituteGroup r name c = .ok found c') :
    c' = c ∨ ∃ c1, r.opgroups.get? name = none ∧
      ((c.opgroupVertices name).forM fun v => substituteVertex r v .delete .merge) c = .ok ⟨⟩ c1 ∧
      c' = { c1 with opgroups := c1.opgroups.erase name } := by
  unfold substituteGroup at hrun
  split at hrun
  · cases hrun
  dsimp only at hrun
  rw [bind_get] at hrun
  split at hrun
  · cases hrun
  next hcollide =>
  cases hget : c.opgroups.get? name with
  | none =>
    rw [hget] at hrun
    cases hrun
    exact .inl rfl
  | some signature =>
    rw [hget] at hrun
    dsimp only at hrun
    split at hrun
    · cases hrun
    obtain ⟨_, c1, hloop, hrest⟩ := bind_eq_ok.mp hrun
    cases hrest
    refine .inr ⟨c1, ?_, hloop, rfl⟩
    cases hsig : r.opgroups.get? name with
    | none => rfl
    | some s =>
      refine absurd (any_eq_true.mpr ⟨name, mem_keys_iff.mpr ⟨s, hsig⟩, ?_⟩) hcollide
      exact contains_iff.mpr ⟨signature, hget⟩

lemma substituteGroup_coherent (hr : r.Coherent) (name : String) : Keeps Coherent (substituteGroup r name) := by
  intro c a c' hc hrun
  obtain rfl | ⟨c1, hnew, hloop, rfl⟩ := substituteGroup_eq_ok hrun
  · exact hc
  · obtain ⟨hc1, hgone⟩ := forM_ok_induction
      (fun rest c1 => c1.Coherent ∧ ∀ v n, c1.graph.vertices.get? v = some n → n.opgroup = some name → v ∈ rest)
      (by
        rintro v rest c1 u _ ⟨hc1, hmem⟩ hstep
        refine ⟨substituteVertex_coherent hr v .merge _ _ _ hc1 hstep, fun w n hn hname => ?_⟩
        obtain ⟨_, _, _, _, hhole, _, _, hs, _⟩ := substituteVertex_eq_ok hc1.wellFormed hr.wellFormed hstep
        obtain ⟨⟨n0, hn0, hname0⟩, hout⟩ := hs.opgroup_cases hr.labelled hnew hn hname
        refine (mem_cons.mp (hmem w n0 hn0 hname0)).resolve_left fun heq => ?_
        exact hout ((holeAt_interior hhole).mpr heq))
      ⟨hc, fun v n hn hname => (mem_opgroupVertices hc.wellFormed).mpr ⟨n, hn, hname⟩⟩ hloop
    refine ⟨hc1.wellFormed.of_graph rfl rfl, fun v n hn name' hname => ?_⟩
    obtain ⟨op, hop, hsig⟩ := hc1.labelled v n hn name' hname
    refine ⟨op, hop, ?_⟩
    have hne : name' ≠ name := by
      rintro rfl
      cases hgone v n hn hname
    rw [get?_erase_other _ hne]
    exact hsig

lemma substituteGroupOp_coherent (op : Op) (name : String) : Keeps Coherent (substituteGroupOp op name) := by
  intro c a c' hc hrun
  unfold substituteGroupOp at hrun
  rw [bind_get] at hrun
  cases hget : c.opgroups.get? name with
  | none =>
    rw [hget] at hrun
    cases hrun
    exact hc
  | some signature =>
    rw [hget] at hrun
    dsimp only at hrun
    split at hrun
    · cases hrun
    next hsig =>
    obtain ⟨_, c1, hloop, hrest⟩ := bind_eq_ok.mp hrun
    cases hrest
    refine (forM_ok_induction (fun rest c1 => c1.Coherent ∧ c1.opgroups = c.opgroups ∧
        ∀ v ∈ rest, ∃ n, c1.graph.vertices.get? v = some n ∧ n.opgroup = some name)
      (fun v rest c1 u c2 ⟨hc1, hnames, hmem⟩ hstep => ?_)
      ⟨hc, rfl, fun v hv => (mem_opgroupVertices hc.wellFormed).mp hv⟩ hloop).1
    obtain ⟨n, hn, hname⟩ := hmem v mem_cons_self
    obtain ⟨op', hop', hsig'⟩ := hc1.labelled v n hn name hname
    have hk : c1.graph.kind? v = some (.op op') := by
      unfold kind?
      rw [hn, ← hop']
      rfl
    have hsame : op.signature = op'.signature := by
      rw [hnames, hget] at hsig'
      exact (not_not.mp hsig).symm.trans (Option.some.inj hsig')
    refine ⟨setOp_coherent hc1 hk hsame hstep, ?_⟩
    obtain ⟨g, hset, rfl⟩ := onGraph_eq_ok.mp hstep
    obtain ⟨_, rfl⟩ := setKind_eq_ok hset
    refine ⟨hnames, fun w hw => ?_⟩
    obtain ⟨nw, hnw, hnamew⟩ := hmem w (mem_cons_of_mem _ hw)
    unfold withKind
    rw [SlotStore.get?_update, hnw]
    split
    · exact ⟨_, rfl, hnamew⟩
    · exact ⟨nw, rfl, hnamew⟩

/-! ## Conditions -/

section Keeps

variable {P : Circuit → Prop}

lemma addUnitLike_keeps {u : UnitId} (hadd : Keeps P (addUnit u)) (hmark : ∀ s : Side, Keeps P (s.mark u))
    (c : Circuit) : Keeps P (c.addUnitLike u) :=
  hadd.bind fun _ => ask_keeps.bind fun _ =>
    .when (hmark .first) (ask_keeps.bind fun _ => .ite (hmark .last) (.pure _))

lemma conditions_keep (hunit : ∀ u, Keeps P (addUnit u)) (hop : ∀ op args og, Keeps P (addOp op args og))
    (c : Circuit) (bits : List UnitId) (value : Nat) : Keeps P (do
      bits.forM addConditionBit
      c.commands.forM (addConditioned bits value)
      if !c.phase.isZero then
        let op ← ask fun _ => (Op.phase c.phase).conditioned bits.length value
        discard (addOp op bits none) : Edit Unit) := by
  refine (Keeps.forM fun u _ => ?_).bind fun _ => (Keeps.forM fun cmd _ => ?_).bind fun _ => ?_
  · exact ask_keeps.bind fun _ => Keeps.get.bind fun _ => .ite (hunit u) (.pure _)
  · exact .when (.throw _) (ask_keeps.bind fun op => (hop op _ _).discard)
  · exact .ite (ask_keeps.bind fun op => (hop op _ _).discard) (.pure _)

lemma conditioned_of_keeps (hstart : P { name := c.name }) (hunit : ∀ u, Keeps P (addUnit u))
    (hmark : ∀ (s : Side) u, Keeps P (s.mark u)) (hop : ∀ op args og, Keeps P (addOp op args og)) {bits : List UnitId} {value : Nat}
    (hrun : c.conditioned bits value = .ok c') : P c' := by
  obtain ⟨a, hrun⟩ := edited_eq_ok.mp hrun
  exact (Keeps.forM fun u _ => addUnitLike_keeps (hunit u) (hmark · u) c).bind
    (fun _ => conditions_keep hunit hop c bits value) _ _ _ hstart hrun

end Keeps

lemma conditioned_coherent {bits : List UnitId} {value : Nat} (hrun : c.conditioned bits value = .ok c') : c'.Coherent :=
  conditioned_of_keeps (coherent_empty rfl rfl) addUnit_coherent Side.mark_coherent addOp_coherent hrun

lemma underLayers_coherent {offset : Nat} {layers : List (Nat × Nat)} (hc : c.Coherent)
    (hrun : c.underLayers offset layers = .ok c') : c'.Coherent := by
  cases layers with
  | nil => cases hrun; exact hc
  | cons layer rest =>
    obtain ⟨_, _, hrun⟩ := bind_ok_iff.mp hrun
    exact conditioned_coherent hrun

lemma rename_coherent {ρ : Renaming} {changed : Bool} (hc : c.Coherent) (hrun : c.rename ρ = .ok (changed, c')) :
    c'.Coherent where
  wellFormed := rename_wellFormed hc.wellFormed hrun
  labelled := renameUnits_labelled ρ _ _ _ hc.labelled (revise_eq_ok.mpr hrun)

lemma substituteConditional_eq_ok {deletion : Deletion} (hrun : substituteConditional r v deletion policy c = .ok a c') :
    ∃ op changed shifted wrapped, r.isSimple ∧ c.opAt v = .ok op ∧ op.isConditional ∧
      r.rename (shiftBits r.bits (totalWidth op.layers)) = .ok (changed, shifted) ∧
      shifted.underLayers 0 op.layers = .ok wrapped ∧ substituteVertex wrapped v deletion policy c = .ok a c' := by
  unfold substituteConditional at hrun
  split at hrun
  · cases hrun
  next hsimple =>
  obtain ⟨op, hop, hrest⟩ := bind_ask_eq_ok.mp hrun
  dsimp only at hrest
  split at hrest
  · cases hrest
  next hcond =>
  split at hrest
  · cases hrest
  obtain ⟨⟨changed, shifted⟩, hrename, hrest2⟩ := bind_ask_eq_ok.mp hrest
  obtain ⟨wrapped, hlayers, hrest3⟩ := bind_ask_eq_ok.mp hrest2
  exact ⟨op, changed, shifted, wrapped, by simpa using hsimple, hop, by simpa using hcond, hrename, hlayers, hrest3⟩

lemma substituteConditional_coherent (hr : r.Coherent) (v : Vertex) (policy : OpgroupPolicy) :
    Keeps Coherent (substituteConditional r v .delete policy) := by
  intro c a c' hc hrun
  obtain ⟨_, _, _, _, _, _, _, hrename, hlayers, hrest⟩ := substituteConditional_eq_ok hrun
  have hwrapped := underLayers_coherent (rename_coherent hr hrename) hlayers
  exact substituteVertex_coherent hwrapped v policy _ _ _ hc hrest

end Wireloom.Circuit

/-! # `Circuit.Reachable` -/

namespace Wireloom.Circuit

/-- **The circuits that calls make**, from circuits that were made before. A region can be replaced if no path of
    links and hazards leaves it and comes back. -/
inductive Reachable : Circuit → Prop
  | empty (name : Option String) : Reachable { name }
  | ofUnits (qubits bits : Nat) : Reachable (ofUnits qubits bits)
  | addUnit {c c' : Circuit} {u : UnitId} {a : Unit} : Reachable c → addUnit u c = .ok a c' → Reachable c'
  | createQubit {c c' : Circuit} {u : UnitId} {a : Unit} : Reachable c → createQubit u c = .ok a c' → Reachable c'
  | discardQubit {c c' : Circuit} {u : UnitId} {a : Unit} : Reachable c → discardQubit u c = .ok a c' → Reachable c'
  | addOp {c c' : Circuit} {op : Op} {args : List UnitId} {opgroup : Option String} {v : Vertex} : Reachable c →
      addOp op args opgroup c = .ok v c' → Reachable c'
  | removeOp {c c' : Circuit} {v : Vertex} {a : Unit} : Reachable c → removeOp v c = .ok a c' → Reachable c'
  | renameUnits {c c' : Circuit} {ρ : Renaming} {changed : Bool} : Reachable c →
      renameUnits ρ c = .ok changed c' → Reachable c'
  | flattenRegisters {c c' : Circuit} {ρ : Renaming} : Reachable c → flattenRegisters c = .ok ρ c' → Reachable c'
  | removeBlankWires {c c' : Circuit} {units : List UnitId} : Reachable c →
      removeBlankWires c = .ok units c' → Reachable c'
  | bindSymbols {c : Circuit} (σ : Binding) : Reachable c → Reachable (c.bindSymbols σ)
  | append {c c' guest : Circuit} {ρ : Renaming} {a : Unit} : Reachable c → Reachable guest →
      appendRenamed guest ρ c = .ok a c' → Reachable c'
  | parallel {c c' guest : Circuit} : Reachable c → Reachable guest → c.parallel guest = .ok c' → Reachable c'
  | dagger {c c' : Circuit} : Reachable c → c.dagger = .ok c' → Reachable c'
  | transpose {c c' : Circuit} : Reachable c → c.transpose = .ok c' → Reachable c'
  | conditioned {c c' : Circuit} {bits : List UnitId} {value : Nat} : Reachable c →
      c.conditioned bits value = .ok c' → Reachable c'
  | substituteOp {c c' : Circuit} {op : Op} {v : Vertex} {a : Unit} : Reachable c →
      substituteOp op v c = .ok a c' → Reachable c'
  | substituteVertex {c c' r : Circuit} {v : Vertex} {policy : OpgroupPolicy} {a : Unit} : Reachable c → Reachable r →
      substituteVertex r v .delete policy c = .ok a c' → Reachable c'
  | substituteRegion {c c' r : Circuit} {region : SortedSet Vertex} {hole : Hole} {policy : OpgroupPolicy} {a : Unit} :
      Reachable c → Reachable r → c.holeOf region = .ok hole →
      Net.Convex c.graph.net.Before (fun v => region.contains v = true) →
      substitute r hole .delete policy c = .ok a c' → Reachable c'
  | substituteAll {c c' r : Circuit} {op : Op} {found : Bool} : Reachable c → Reachable r →
      substituteAll r op c = .ok found c' → Reachable c'
  | substituteGroup {c c' r : Circuit} {name : String} {found : Bool} : Reachable c → Reachable r →
      substituteGroup r name c = .ok found c' → Reachable c'
  | substituteGroupOp {c c' : Circuit} {op : Op} {name : String} {found : Bool} : Reachable c →
      substituteGroupOp op name c = .ok found c' → Reachable c'
  | substituteConditional {c c' r : Circuit} {v : Vertex} {policy : OpgroupPolicy} {a : Unit} : Reachable c →
      Reachable r → substituteConditional r v .delete policy c = .ok a c' → Reachable c'

lemma ofUnits_coherent (qubits bits : Nat) : (ofUnits qubits bits).Coherent where
  wellFormed := ofUnits_wellFormed qubits bits
  labelled := by
    unfold ofUnits
    generalize (List.range qubits).map UnitId.qubit ++ (List.range bits).map UnitId.bit = us
    have hstart : Labelled {} := fun v n hn => by cases hn
    generalize ({} : Circuit) = c at hstart
    induction us generalizing c with
    | nil => exact hstart
    | cons u rest ih => exact ih _ (insertUnit_labelled hstart u)

lemma Reachable.coherent {c : Circuit} (h : Reachable c) : c.Coherent := by
  induction h with
  | empty name => exact coherent_empty rfl rfl
  | ofUnits qubits bits => exact ofUnits_coherent qubits bits
  | addUnit _ hrun ih => exact addUnit_coherent _ _ _ _ ih hrun
  | createQubit _ hrun ih => exact Side.mark_coherent .first _ _ _ _ ih hrun
  | discardQubit _ hrun ih => exact Side.mark_coherent .last _ _ _ _ ih hrun
  | addOp _ hrun ih => exact addOp_coherent _ _ _ _ _ _ ih hrun
  | removeOp _ hrun ih =>
    exact ⟨removeOp_keeps _ _ _ _ ih.wellFormed hrun, removeOp_labelled _ _ _ _ ih.labelled hrun⟩
  | renameUnits _ hrun ih =>
    exact ⟨renameUnits_keeps _ _ _ _ ih.wellFormed hrun, renameUnits_labelled _ _ _ _ ih.labelled hrun⟩
  | flattenRegisters _ hrun ih =>
    exact ⟨flattenRegisters_keeps _ _ _ ih.wellFormed hrun, flattenRegisters_labelled _ _ _ ih.labelled hrun⟩
  | removeBlankWires _ hrun ih =>
    exact ⟨removeBlankWires_keeps _ _ _ ih.wellFormed hrun, removeBlankWires_labelled _ _ _ ih.labelled hrun⟩
  | bindSymbols σ _ ih => exact ⟨bindSymbols_wellFormed ih.wellFormed σ, bindSymbols_labelled ih.labelled σ⟩
  | append _ _ hrun ih ihg =>
    exact ⟨appendRenamed_keeps ihg.wellFormed _ _ _ _ ih.wellFormed hrun,
      appendRenamed_labelled ihg.wellFormed ihg.labelled _ ih.wellFormed ih.labelled hrun⟩
  | parallel _ _ hrun ih ihg =>
    exact ⟨parallel_wellFormed ih.wellFormed ihg.wellFormed hrun,
      parallel_labelled ih.wellFormed ih.labelled ihg.wellFormed ihg.labelled hrun⟩
  | dagger _ hrun ih =>
    exact ⟨dagger_wellFormed ih.wellFormed hrun,
      reversed_labelled (fun _ _ => Op.signature_dagger) ih.wellFormed ih.labelled hrun⟩
  | transpose _ hrun ih =>
    exact ⟨transpose_wellFormed ih.wellFormed hrun,
      reversed_labelled (fun _ _ => Op.signature_transpose) ih.wellFormed ih.labelled hrun⟩
  | conditioned _ hrun _ => exact conditioned_coherent hrun
  | substituteOp _ hrun ih => exact substituteOp_coherent _ _ _ _ _ ih hrun
  | substituteVertex _ _ hrun ih ihr => exact substituteVertex_coherent ihr _ _ _ _ _ ih hrun
  | substituteRegion _ _ hhole hconvex hrun ih ihr =>
    refine substitute_coherent ih ihr (fun hw => holeOf_isHole hw hhole) ?_ hrun
    rw [holeOf_interior hhole]
    exact hconvex
  | substituteAll _ _ hrun ih ihr => exact substituteAll_coherent ihr _ _ _ _ ih hrun
  | substituteGroup _ _ hrun ih ihr => exact substituteGroup_coherent ihr _ _ _ _ ih hrun
  | substituteGroupOp _ hrun ih => exact substituteGroupOp_coherent _ _ _ _ _ ih hrun
  | substituteConditional _ _ hrun ih ihr => exact substituteConditional_coherent ihr _ _ _ _ _ ih hrun

/-- **Every circuit that calls can make is well-formed.** -/
theorem wellFormed_of_reachable {c : Circuit} (h : Reachable c) : c.WellFormed := h.coherent.wellFormed

/-- A measurement, put in and then replaced by a reset. -/
theorem wellFormed_of_reachable_reset : ∃ r c, (ofUnits 1 1).edited (addOp .reset [.qubit 0] none) = .ok r ∧
    (ofUnits 1 1).edited (do substituteVertex r (← addOp .measure [.qubit 0, .bit 0] none) .delete .merge) = .ok c ∧
    c.WellFormed := by
  simp only [exists_and_left]
  refine exists_run fun r hr => exists_and_of (of_run hr (by decide +kernel)) fun c hc => ?_
  obtain ⟨_, hreset⟩ := edited_eq_ok.mp hr
  obtain ⟨_, hrun⟩ := edited_eq_ok.mp hc
  obtain ⟨v, c₁, hadd, hsubst⟩ := bind_eq_ok.mp hrun
  exact wellFormed_of_reachable (.substituteVertex (.addOp (.ofUnits 1 1) hadd) (.addOp (.ofUnits 1 1) hreset) hsubst)

/-! # `Circuit.substituteGroupOp` — opgroups that can be relied on -/

open Option

variable {c c' : Circuit} {op : Op} {name : String}

/-- The vertex with another operation, if it is in the group. -/
def exchanged (op : Op) (name : String) (n : Node) : Node :=
  if n.opgroup = some name then { n with kind := .op op } else n

lemma setKinds_run {vs : List Vertex} {k : NodeKind} (hlive : ∀ v ∈ vs, c.graph.Live v) :
    ∃ g, vs.forM (fun v => onGraph (Graph.setKind v k)) c = .ok ⟨⟩ { c with graph := g } ∧
      ∀ v, g.vertices.get? v = (c.graph.vertices.get? v).map fun n => if v ∈ vs then { n with kind := k } else n := by
  induction vs generalizing c with
  | nil => exact ⟨c.graph, rfl, fun v => by simp⟩
  | cons v rest ih =>
    obtain ⟨hv, hrest⟩ := List.forall_mem_cons.mp hlive
    have hset : onGraph (Graph.setKind v k) c = .ok ⟨⟩ { c with graph := c.graph.withKind v k } :=
      onGraph_of_ok (Graph.setKind_of_live hv)
    have hget : ∀ w, (c.graph.withKind v k).vertices.get? w =
        (c.graph.vertices.get? w).map fun n => if w = v then { n with kind := k } else n := by
      intro w
      unfold Graph.withKind
      rw [SlotStore.get?_update]
      by_cases hw : w = v
      · simp [hw]
      · simp [hw]
    obtain ⟨g, hloop, hg⟩ := @ih { c with graph := c.graph.withKind v k } fun w hw => by
      obtain ⟨n, hn⟩ := Graph.live_iff.mp (hrest w hw)
      exact Graph.live_iff.mpr ⟨_, by rw [hget, hn]; rfl⟩
    refine ⟨g, (bind_ok hset).trans hloop, fun w => ?_⟩
    rw [hg, hget, map_map]
    refine congrArg (fun f => (c.graph.vertices.get? w).map f) (funext fun n => ?_)
    by_cases hw : w = v
    · simp [hw]
    · simp [hw]

/-- **Exchanging a group, all cases.** It runs through if the operation has the noted signature. If there is no note, or
    another one, nothing changes. -/
theorem substituteGroupOp_cases (hc : c.Coherent) (op : Op) (name : String) : (c.opgroups.get? name = some op.signature ∧ ∃ g,
      substituteGroupOp op name c = .ok (!(c.opgroupVertices name).isEmpty) { c with graph := g } ∧
      ∀ v, g.vertices.get? v = (c.graph.vertices.get? v).map (exchanged op name)) ∨
    (c.opgroups.get? name = none ∧ substituteGroupOp op name c = .ok false c) ∨
    ∃ e, substituteGroupOp op name c = .error e c := by
  unfold substituteGroupOp
  rw [bind_get]
  cases hget : c.opgroups.get? name with
  | none => exact .inr (.inl ⟨rfl, rfl⟩)
  | some signature =>
    dsimp only
    by_cases hsig : signature = op.signature
    · subst hsig
      have hmem : ∀ v, v ∈ c.opgroupVertices name ↔ ∃ n, c.graph.vertices.get? v = some n ∧ n.opgroup = some name :=
        fun v => mem_opgroupVertices hc.wellFormed
      obtain ⟨g, hloop, hg⟩ := setKinds_run fun v hv => by
        obtain ⟨n, hn, _⟩ := (hmem v).mp hv
        exact Graph.live_of_get? hn
      refine .inl ⟨rfl, g, ?_, fun v => ?_⟩
      · rw [if_neg (not_not.mpr rfl), bind_ok hloop]
        rfl
      · rw [hg]
        refine map_congr fun n hn => ?_
        have hgroup : v ∈ c.opgroupVertices name ↔ n.opgroup = some name := by
          rw [hmem, hn]
          simp
        simp only [hgroup, exchanged]
    · refine .inr (.inr ⟨.invalid (.operationSignature op.name name), ?_⟩)
      rw [if_pos hsig]
      rfl

lemma substituteGroupOp_exchanges (hc : c.Coherent) {found : Bool} (hrun : substituteGroupOp op name c = .ok found c')
    (v : Vertex) : c'.graph.vertices.get? v = (c.graph.vertices.get? v).map (exchanged op name) := by
  rcases substituteGroupOp_cases hc op name with ⟨_, g, hdone, hg⟩ | ⟨hnone, hdone⟩ | ⟨e, hdone⟩
  · rw [hdone] at hrun
    cases hrun
    exact hg v
  · rw [hdone] at hrun
    cases hrun
    -- a group without a note has no vertices
    cases hn : c.graph.vertices.get? v with
    | none => rfl
    | some n =>
      have hother : ¬ n.opgroup = some name := by
        intro hname
        obtain ⟨_, _, hsig⟩ := hc.labelled v n hn name hname
        rw [hnone] at hsig
        cases hsig
      rw [map_some, exchanged, if_neg hother]
  · rw [hdone] at hrun
    cases hrun

lemma signature_exchanged (hc : c.Coherent) (hsig : c.opgroups.get? name = some op.signature) {v : Vertex} {n : Node}
    (hn : c.graph.vertices.get? v = some n) : (exchanged op name n).kind.signature = n.kind.signature := by
  unfold exchanged
  split
  · next hname =>
    obtain ⟨_, hop, hsig'⟩ := hc.labelled v n hn name hname
    rw [hop]
    exact mem_unique hsig hsig'
  · rfl

lemma signature_substituteGroupOp (hc : c.Coherent) (op : Op) (name : String) (v : Vertex) :
    ((afterwards (substituteGroupOp op name) c).graph.kind? v).map NodeKind.signature =
      (c.graph.kind? v).map NodeKind.signature := by
  rcases substituteGroupOp_cases hc op name with ⟨hsig, g, hdone, hg⟩ | ⟨_, hdone⟩ | ⟨e, hdone⟩
  · rw [afterwards_of_ok hdone]
    unfold Graph.kind?
    rw [hg, map_map, map_map, map_map]
    exact map_congr fun n hn => signature_exchanged hc hsig hn
  · rw [afterwards_of_ok hdone]
  · rw [afterwards_of_error hdone]

/-- **Opgroups can be relied on**, however a circuit was made. A vertex of a group holds an operation of the signature
    that the circuit notes for it. So exchanging the operations of a group exchanges those of its vertices, and leaves
    every vertex with the signature that it had. -/
theorem opgroups_of_reachable (h : Reachable c) : (∀ v n name, c.graph.vertices.get? v = some n → n.opgroup = some name →
      ∃ op, n.kind = .op op ∧ c.opgroups.get? name = some op.signature) ∧
    (∀ op name found c', substituteGroupOp op name c = .ok found c' → ∀ v,
      c'.graph.vertices.get? v = (c.graph.vertices.get? v).map (exchanged op name)) ∧
    ∀ op name v, ((afterwards (substituteGroupOp op name) c).graph.kind? v).map NodeKind.signature =
      (c.graph.kind? v).map NodeKind.signature := by
  have hc := h.coherent
  exact ⟨fun v n name hn hname => hc.labelled v n hn name hname, fun _ _ _ _ hrun => substituteGroupOp_exchanges hc hrun,
    signature_substituteGroupOp hc⟩

/-- Under a condition a reset keeps its group, which is noted with the wider signature. -/
theorem opgroups_of_reachable_conditioned : ∃ c₁ c c', (ofUnits 1 1).edited (addOp .reset [.qubit 0] (some "g")) = .ok c₁ ∧
    c₁.conditioned [.bit 0] 1 = .ok c ∧ c.opgroups.get? "g" = some [.boolean, .quantum] ∧
    substituteGroupOp (.conditional .reset 1 0) "g" c = .ok true c' ∧
    (∀ v, c'.graph.vertices.get? v = (c.graph.vertices.get? v).map (exchanged (.conditional .reset 1 0) "g")) ∧
    ∀ v, (c'.graph.kind? v).map NodeKind.signature = (c.graph.kind? v).map NodeKind.signature := by
  simp only [exists_and_left]
  refine exists_run fun c₁ h₁ => exists_and_of (of_run h₁ (by decide +kernel)) fun c hcond =>
    ⟨of_run hcond (of_run h₁ (by decide +kernel)),
      exists_and_of (of_run hcond (of_run h₁ (by decide +kernel))) fun c' hrun => ?_⟩
  obtain ⟨_, hadd⟩ := edited_eq_ok.mp h₁
  obtain ⟨_, hexchanges, hsignature⟩ := opgroups_of_reachable (.conditioned (.addOp (.ofUnits 1 1) hadd) hcond)
  refine ⟨hexchanges _ _ _ _ hrun, fun v => ?_⟩
  rw [← hsignature (.conditional .reset 1 0) "g" v, afterwards_of_ok hrun]

end Circuit

/-! # `Graph.Numbered` — sequence numbers are not used again -/

namespace Graph

variable {g : Graph} {v w : Vertex} {n m : Node} {es : List (Edge × Link)}

/-! ## Numbers that are different -/

/-- **Every vertex has a number of its own**, lower than the next one will get. -/
structure Numbered (g : Graph) : Prop where
  sequenced : g.Sequenced
  distinct : ∀ {v w n m}, g.vertices.get? v = some n → g.vertices.get? w = some m → n.sequence = m.sequence → v = w

lemma Numbered.withVertex {kind : NodeKind} {og : Option String} (h : g.Numbered) : (g.withVertex kind og).Numbered where
  sequenced := h.sequenced.withVertex
  distinct {v w n m} hn hm heq := by
    rcases get?_withVertex_cases hn with ⟨hv, rfl⟩ | hold <;> rcases get?_withVertex_cases hm with ⟨hw, rfl⟩ | hold'
    · exact hv.trans hw.symm
    · exact absurd heq (h.sequenced w m hold').ne'
    · exact absurd heq (h.sequenced v n hold).ne
    · exact h.distinct hold hold' heq

lemma Numbered.withoutVertex (h : g.Numbered) : (g.withoutVertex v).Numbered where
  sequenced := h.sequenced.withoutVertex
  distinct hn hm := h.distinct (SlotStore.get?_release_eq_some_iff.mp hn).2 (SlotStore.get?_release_eq_some_iff.mp hm).2

lemma lasting_numbered : Lasting Numbered where
  empty := ⟨lasting_sequenced.empty, fun hn => nomatch hn⟩
  withVertex h := h.withVertex
  withoutVertex h := h.withoutVertex
  congr {g g'} h hsame hnext := by
    refine ⟨lasting_sequenced.congr h.sequenced hsame hnext, fun {v w n m} hn hm heq => ?_⟩
    have hold : ∀ {v n}, g'.vertices.get? v = some n → ∃ n0, g.vertices.get? v = some n0 ∧ n0.sequence = n.sequence := by
      intro v n hn
      have hseq := hsame v
      rw [hn, Option.map_some] at hseq
      exact Option.map_eq_some_iff.mp hseq.symm
    obtain ⟨n0, hn0, hseq⟩ := hold hn
    obtain ⟨_, hm0, hseq'⟩ := hold hm
    exact h.distinct hn0 hm0 (hseq.trans (heq.trans hseq'.symm))

/-! ## Edits of a graph -/

section Copying

variable {P : Graph → Prop} (hv : ∀ kind og, Keeps P (addVertex kind og))
include hv

lemma copyVertices_keeps (keepNames : Bool) (ns : List (Vertex × Node)) : Keeps P (copyVertices keepNames ns) := by
  induction ns with
  | nil => exact Keeps.pure _
  | cons p rest ih => exact (hv _ _).bind fun _ => ih.bind fun _ => Keeps.pure _

lemma copyIn_keeps (hl : ∀ l, Keeps P (addLink l)) (guest : Graph) (keepNames : Bool) : Keeps P (copyIn guest keepNames) :=
  (copyVertices_keeps hv _ _).bind fun _ => (Keeps.forM fun _ _ => ask_keeps.bind fun _ => ask_keeps.bind fun _ =>
    (hl _).discard).bind fun _ => Keeps.pure _

end Copying

section Lasting

variable {P : Graph → Prop} (hP : Lasting P)
include hP

lemma setKind_lasts (v : Vertex) (kind : NodeKind) : Keeps P (setKind v kind) :=
  ask_keeps.bind fun _ => Keeps.modify fun _ => hP.withKind

lemma copyIn_lasts (guest : Graph) (keepNames : Bool) : Keeps P (copyIn guest keepNames) :=
  copyIn_keeps (fun _ _ => addVertex_lasts hP) (addLink_prunes hP.prunable) guest keepNames

end Lasting

end Graph

namespace Circuit

open Wireloom.Graph

variable {c c' : Circuit} {P : Graph → Prop} (hP : Lasting P) {guest : Circuit} {policy : OpgroupPolicy}
include hP

lemma addLink_lasts (l : Link) : Keeps (OnGraph P) (onGraph (addLink l)) :=
  onGraph_lasts (addLink_prunes hP.prunable l)

lemma setKind_lasts (v : Vertex) (kind : NodeKind) : Keeps (OnGraph P) (onGraph (setKind v kind)) :=
  onGraph_lasts (Graph.setKind_lasts hP v kind)

lemma removeVertex_lasts (v : Vertex) (rewiring : Rewiring) (deletion : Deletion) :
    Keeps (OnGraph P) (onGraph (removeVertex v rewiring deletion)) :=
  onGraph_lasts (removeVertex_prunes hP.prunable v rewiring deletion)

omit hP in
lemma addPhase_lasts (a : Angle) : Keeps (OnGraph P) (addPhase a) := Keeps.modify fun _ => id

lemma lasts_of_empty (h : c.graph = {}) : c.OnGraph P := by
  rw [OnGraph, h]
  exact hP.empty

/-! ## Units -/

lemma insertUnit_lasts (h : c.OnGraph P) (u : UnitId) : (c.insertUnit u).OnGraph P :=
  hP.of_vertices (hP.withVertex (hP.withVertex h)) rfl rfl

lemma ofUnits_lasts (qubits bits : Nat) : (ofUnits qubits bits).OnGraph P := by
  unfold ofUnits
  generalize (List.range qubits).map UnitId.qubit ++ (List.range bits).map UnitId.bit = us
  have hstart : OnGraph P {} := lasts_of_empty hP rfl
  generalize ({} : Circuit) = c at hstart
  induction us generalizing c with
  | nil => exact hstart
  | cons u rest ih => exact ih _ (insertUnit_lasts hP hstart u)

lemma addUnit_lasts (u : UnitId) : Keeps (OnGraph P) (addUnit u) := by
  exact Keeps.get.bind fun _ => .when (.throw _) (ask_keeps.bind fun _ => Keeps.modify fun _ h => insertUnit_lasts hP h u)

lemma Side.mark_lasts (s : Side) (u : UnitId) : Keeps (OnGraph P) (s.mark u) := by
  cases s <;> exact ask_keeps.bind fun _ => ask_keeps.bind fun _ => setKind_lasts hP _ _

omit hP in
lemma renameUnits_lasts (ρ : Renaming) : Keeps (OnGraph P) (renameUnits ρ) := by
  intro c changed c' h hrun
  have hgraph := (rename_eq_ok (revise_eq_ok.mp hrun)).graph_eq
  unfold OnGraph
  rw [hgraph]
  exact h

omit hP in
lemma flattenRegisters_lasts : Keeps (OnGraph P) flattenRegisters :=
  Keeps.get.bind fun _ => (renameUnits_lasts _).bind fun _ => Keeps.pure _

lemma removeBlankWires_lasts : Keeps (OnGraph P) removeBlankWires := by
  refine ask_keeps.bind fun blank => (Keeps.forM fun x _ => ?_).bind fun _ => Keeps.pure _
  refine Keeps.bind (Keeps.modify fun _ => id) fun _ => ?_
  exact (removeVertex_lasts hP _ _ _).bind fun _ => removeVertex_lasts hP _ _ _

lemma bindSymbols_lasts (h : c.OnGraph P) (σ : Binding) : (c.bindSymbols σ).OnGraph P := by
  refine hP.congr h (fun v => ?_) rfl
  rw [get?_bindSymbols, Option.map_map]
  rfl

lemma removeOp_lasts (v : Vertex) : Keeps (OnGraph P) (removeOp v) :=
  ask_keeps.bind fun _ => .when (.throw _) (removeVertex_lasts hP _ _ _)

/-! ## Circuits that come in -/

omit hP in
lemma copyIn_onGraph
    (hcopy : Keeps P (Graph.copyIn guest.graph policy.keepsNames)) : Keeps (OnGraph P) (copyIn guest policy) := by
  refine ask_keeps.bind fun _ => (onGraph_lasts hcopy).bind fun _ => ?_
  exact Keeps.ite (Keeps.bind (Keeps.modify fun _ => id) fun _ => Keeps.pure _) (Keeps.pure _)

lemma copyIn_lasts (guest : Circuit) (policy : OpgroupPolicy) : Keeps (OnGraph P) (copyIn guest policy) :=
  copyIn_onGraph (Graph.copyIn_lasts hP _ _)

lemma tieUnit_lasts (u : UnitId) (ends : Ends) : Keeps (OnGraph P) (tieUnit u ends) := by
  refine Keeps.get.bind fun c => ?_
  cases c.boundary.get? u with
  | none => exact Keeps.modify fun _ => id
  | some hostEnds =>
    have hlast : Keeps (OnGraph P) (modify fun host =>
        { host with boundary := host.boundary.insert u ⟨hostEnds.input, ends.output⟩ } : Edit PUnit) :=
      Keeps.modify fun _ => id
    refine ask_keeps.bind fun _ => (addLink_lasts hP _).bind fun _ => (removeVertex_lasts hP _ _ _).bind fun _ => ?_
    exact ask_keeps.bind fun _ => Keeps.ite ((setKind_lasts hP _ _).bind fun _ => hlast)
      ((removeVertex_lasts hP _ _ _).bind fun _ => hlast)

lemma appendRenamed_lasts (guest : Circuit) (ρ : Renaming) : Keeps (OnGraph P) (appendRenamed guest ρ) :=
  ask_keeps.bind fun _ => (Keeps.forM fun _ _ => ask_keeps).bind fun _ => (copyIn_lasts hP _ _).bind fun _ =>
    (Keeps.forM fun _ _ => ask_keeps.bind fun _ => tieUnit_lasts hP _ _).bind fun _ => addPhase_lasts _

omit hP in
lemma mergeIn_onGraph
    (hcopy : Keeps P (Graph.copyIn guest.graph policy.keepsNames)) : Keeps (OnGraph P) (mergeIn guest policy) := by
  refine ask_keeps.bind fun _ => ask_keeps.bind fun _ => (copyIn_onGraph hcopy).bind fun _ => ?_
  refine Keeps.bind (Keeps.forM fun _ _ => ?_) fun _ => Keeps.pure _
  exact ask_keeps.bind fun _ => Keeps.modify fun _ => id

lemma mergeIn_lasts (guest : Circuit) (policy : OpgroupPolicy) : Keeps (OnGraph P) (mergeIn guest policy) :=
  mergeIn_onGraph (Graph.copyIn_lasts hP _ _)

lemma parallel_lasts (h : c.OnGraph P) (hrun : c.parallel guest = .ok c') : c'.OnGraph P := by
  obtain ⟨a, hrun⟩ := edited_eq_ok.mp hrun
  exact ((mergeIn_lasts hP guest .merge).bind fun _ => addPhase_lasts _) _ _ _ h hrun

/-! ## Circuits built anew -/

omit hP in
lemma reverseLink_prunes (hP : Prunable P) (copies : Copies) (l : Link) : Keeps P (reverseLink copies l) := by
  exact .when (.throw _) (Graph.ask_keeps.bind fun _ => Graph.ask_keeps.bind fun _ => (addLink_prunes hP _).discard)

lemma reverseVertices_lasts (reverseOp : Op → Except CircuitError Op) (ns : List (Vertex × Node)) :
    Keeps P (reverseVertices reverseOp ns) := by
  induction ns with
  | nil => exact Keeps.pure _
  | cons p rest ih =>
    exact Graph.ask_keeps.bind fun _ => (addVertex_lasts hP).bind fun _ => ih.bind fun _ => Keeps.pure _

lemma reversed_lasts {reverseOp : Op → Except CircuitError Op} {phase : Angle}
    (hrun : c.reversed reverseOp phase = .ok c') : c'.OnGraph P := by
  obtain ⟨_, _, hedit⟩ := bind_ok_iff.mp hrun
  obtain ⟨a, hedit⟩ := edited_eq_ok.mp hedit
  refine Keeps.bind (onGraph_lasts (reverseVertices_lasts hP _ _)) (fun copies => ?_) _ _ _ (lasts_of_empty hP rfl) hedit
  refine (onGraph_lasts (Keeps.forM fun _ _ => reverseLink_prunes hP.prunable _ _)).bind fun _ => ?_
  exact Keeps.forM fun _ _ => ask_keeps.bind fun _ => Keeps.modify fun _ => id

lemma conditioned_lasts {bits : List UnitId} {value : Nat} (hrun : c.conditioned bits value = .ok c') : c'.OnGraph P :=
  conditioned_of_keeps (lasts_of_empty hP rfl) (addUnit_lasts hP) (Side.mark_lasts hP) (addOp_lasts hP) hrun

/-! ## Substitution -/

lemma connectReads_lasts (entry : Edge) (ends : Ends) (rest : Leftovers) : Keeps (OnGraph P) (connectReads entry ends rest) :=
  ask_keeps.bind fun _ => Keeps.get.bind fun _ =>
    (Keeps.forM fun _ _ => (addLink_lasts hP _).discard).bind fun _ => Keeps.pure _

lemma connectWire_lasts (entry exit : Edge) (ends : Ends) (rest : Leftovers) :
    Keeps (OnGraph P) (connectWire entry exit ends rest) := by
  refine ask_keeps.bind fun _ => ask_keeps.bind fun _ => ?_
  refine (addLink_lasts hP _).bind fun _ => (addLink_lasts hP _).bind fun _ => ?_
  refine ask_keeps.bind fun _ => ask_keeps.bind fun _ => ?_
  refine Keeps.ite ((setKind_lasts hP _ _).bind fun _ => ?_) ?_
  -- what follows is the same with a reset and without
  all_goals
    refine ask_keeps.bind fun _ => Keeps.ite (ask_keeps.bind fun kind => ?_) (Keeps.pure _)
    cases kind with
    | output _ => exact (setKind_lasts hP _ _).bind fun _ => Keeps.pure _
    | _ => exact Keeps.pure _

lemma connectSlot_lasts (copies : Copies) (rest : Leftovers) (slot : (UnitId × Ends) × Edge × Option Edge) :
    Keeps (OnGraph P) (connectSlot copies rest slot) := by
  obtain ⟨⟨_, _⟩, entry, exit⟩ := slot
  refine ask_keeps.bind fun ends => ?_
  cases exit with
  | none => exact connectReads_lasts hP entry ends rest
  | some exit => exact connectWire_lasts hP entry exit ends rest

lemma connectRead_lasts (rest : Leftovers) (e : Edge) : Keeps (OnGraph P) (connectRead rest e) := by
  refine ask_keeps.bind fun read => Keeps.get.bind fun c => ?_
  cases rest.writerAt? c.graph read.source with
  | none => exact Keeps.throw _
  | some output => exact (addLink_lasts hP _).bind fun _ => Keeps.pure _

lemma clearHole_lasts (rest : Leftovers) (interior : SortedSet Vertex) (deletion : Deletion) :
    Keeps (OnGraph P) (clearHole rest interior deletion) := by
  refine (Keeps.forM fun e _ => Keeps.get.bind fun _ => ?_).bind fun _ => ?_
  · exact Keeps.ite (onGraph_lasts (removeEdge_prunes hP.prunable e)).discard (Keeps.pure _)
  · refine (Keeps.forM fun _ _ => removeVertex_lasts hP _ _ _).bind fun _ => ?_
    exact (Keeps.forM fun _ _ => removeVertex_lasts hP _ _ _).bind fun _ =>
      Keeps.forM fun _ _ => removeVertex_lasts hP _ _ _

lemma substitute_lasts (r : Circuit) (hole : Hole) (deletion : Deletion) (policy : OpgroupPolicy) :
    Keeps (OnGraph P) (substitute r hole deletion policy) :=
  ask_keeps.bind fun _ => (copyIn_lasts hP _ _).bind fun _ =>
    (Keeps.foldlM (connectSlot_lasts hP _) _ _).bind fun _ =>
      (Keeps.foldlM (connectRead_lasts hP) _ _).bind fun _ =>
        (clearHole_lasts hP _ _ _).bind fun _ => addPhase_lasts _

lemma substituteVertex_lasts (r : Circuit) (v : Vertex) (deletion : Deletion) (policy : OpgroupPolicy) :
    Keeps (OnGraph P) (substituteVertex r v deletion policy) :=
  ask_keeps.bind fun _ => substitute_lasts hP _ _ _ _

lemma substituteAll_lasts (r : Circuit) (op : Op) : Keeps (OnGraph P) (substituteAll r op) :=
  Keeps.get.bind fun _ => (Keeps.forM fun _ _ => substituteVertex_lasts hP _ _ _ _).bind fun _ => Keeps.pure _

lemma substituteOp_lasts (op : Op) (v : Vertex) : Keeps (OnGraph P) (substituteOp op v) :=
  ask_keeps.bind fun _ => .when (.throw _) (setKind_lasts hP _ _)

lemma substituteGroup_lasts (r : Circuit) (name : String) : Keeps (OnGraph P) (substituteGroup r name) := by
  intro c found c' h hrun
  obtain rfl | ⟨c1, _, hloop, rfl⟩ := substituteGroup_eq_ok hrun
  · exact h
  · have h1 : c1.OnGraph P := Keeps.forM (fun _ _ => substituteVertex_lasts hP _ _ _ _) _ _ _ h hloop
    exact h1

lemma substituteGroupOp_lasts (op : Op) (name : String) : Keeps (OnGraph P) (substituteGroupOp op name) := by
  refine Keeps.get.bind fun c => ?_
  cases c.opgroups.get? name with
  | none => exact Keeps.pure _
  | some signature => exact .when (.throw _) ((Keeps.forM fun _ _ => setKind_lasts hP _ _).bind fun _ => .pure _)

lemma substituteConditional_lasts (r : Circuit) (v : Vertex) (deletion : Deletion) (policy : OpgroupPolicy) :
    Keeps (OnGraph P) (substituteConditional r v deletion policy) := by
  intro c a c' h hrun
  obtain ⟨_, _, _, _, _, _, _, _, _, hrest⟩ := substituteConditional_eq_ok hrun
  exact substituteVertex_lasts hP _ _ _ _ _ _ _ h hrest

/-! ## Circuits that calls make -/

lemma Reachable.lasts (h : Reachable c) : c.OnGraph P := by
  induction h with
  | empty name => exact lasts_of_empty hP rfl
  | ofUnits qubits bits => exact ofUnits_lasts hP qubits bits
  | addUnit _ hrun ih => exact addUnit_lasts hP _ _ _ _ ih hrun
  | createQubit _ hrun ih => exact Side.mark_lasts hP .first _ _ _ _ ih hrun
  | discardQubit _ hrun ih => exact Side.mark_lasts hP .last _ _ _ _ ih hrun
  | addOp _ hrun ih => exact addOp_lasts hP _ _ _ _ _ _ ih hrun
  | removeOp _ hrun ih => exact removeOp_lasts hP _ _ _ _ ih hrun
  | renameUnits _ hrun ih => exact renameUnits_lasts _ _ _ _ ih hrun
  | flattenRegisters _ hrun ih => exact flattenRegisters_lasts _ _ _ ih hrun
  | removeBlankWires _ hrun ih => exact removeBlankWires_lasts hP _ _ _ ih hrun
  | bindSymbols σ _ ih => exact bindSymbols_lasts hP ih σ
  | append _ _ hrun ih _ => exact appendRenamed_lasts hP _ _ _ _ _ ih hrun
  | parallel _ _ hrun ih _ => exact parallel_lasts hP ih hrun
  | dagger _ hrun _ => exact reversed_lasts hP hrun
  | transpose _ hrun _ => exact reversed_lasts hP hrun
  | conditioned _ hrun _ => exact conditioned_lasts hP hrun
  | substituteOp _ hrun ih => exact substituteOp_lasts hP _ _ _ _ _ ih hrun
  | substituteVertex _ _ hrun ih _ => exact substituteVertex_lasts hP _ _ _ _ _ _ _ ih hrun
  | substituteRegion _ _ _ _ hrun ih _ => exact substitute_lasts hP _ _ _ _ _ _ _ ih hrun
  | substituteAll _ _ hrun ih _ => exact substituteAll_lasts hP _ _ _ _ _ ih hrun
  | substituteGroup _ _ hrun ih _ => exact substituteGroup_lasts hP _ _ _ _ _ ih hrun
  | substituteGroupOp _ hrun ih => exact substituteGroupOp_lasts hP _ _ _ _ _ ih hrun
  | substituteConditional _ _ hrun ih _ => exact substituteConditional_lasts hP _ _ _ _ _ _ _ ih hrun

omit hP

lemma Reachable.sequenced (h : Reachable c) : c.Sequenced := h.lasts lasting_sequenced

lemma Reachable.numbered (h : Reachable c) : c.graph.Numbered := h.lasts lasting_numbered

end Circuit

end Wireloom
