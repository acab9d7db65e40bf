import Wireloom.Proofs.Following
import Wireloom.Proofs.Mirroring

/-!
# `Circuit.Embeds`, `Circuit.Chained.equivalent` — composing equivalent circuits

A composition of two circuits is told by what `Chained` says: which vertices are left, what stands there, how they are
linked and in which order they were made.
-/

namespace Wireloom

open Wireloom.Graph SortedMap

/-- The link `m` is the copy of the link `l`: it joins the copies of the ends of `l` at the same ports, and is of its
    kind. -/
def Copies.MapsLink (copies : Copies) (l m : Link) : Prop :=
  copies.get l.source.vertex = .ok m.source.vertex ∧ m.source.index = l.source.index ∧
    copies.get l.target.vertex = .ok m.target.vertex ∧ m.target.index = l.target.index ∧ m.kind = l.kind

lemma Copies.get_eq_ok {copies : Copies} {v w : Vertex} (h : copies.get v = .ok w) : v ∈ copies.map Prod.fst := by
  unfold get at h
  split at h
  · next heq =>
    obtain ⟨_, _, hcopies, _⟩ := List.lookup_eq_some_iff.mp heq
    simp [hcopies]
  · cases h

namespace Circuit

variable {c guest d host : Circuit} {policy : OpgroupPolicy} {copies : Copies} {ι : Vertex → Vertex} {v v' w w' : Vertex}
  {l m : Link} {e : Edge} {u : UnitId} {ends : Ends}

/-! ## Embeddings -/

/-- **`d` is `host` with a copy of `guest` in it.** The copies are the vertices that are new, one for each vertex of
    `guest`, with its kind and, if the policy keeps names, its opgroup, and they were made in the same order. The new edges
    are the copies of the edges of `guest`, and all old vertices and edges are as they were. -/
structure Embeds (policy : OpgroupPolicy) (copies : Copies) (host guest d : Circuit) : Prop where
  total : ∀ {v}, (∃ w, copies.get v = .ok w) ↔ guest.graph.Live v
  onto : ∀ {w}, (∃ v, copies.get v = .ok w) ↔ d.graph.Live w ∧ ¬ host.graph.Live w
  injective : ∀ {v v' w}, copies.get v = .ok w → copies.get v' = .ok w → v = v'
  node : ∀ {v w n}, copies.get v = .ok w → guest.graph.vertices.get? v = some n →
    ∃ sequence, d.graph.vertices.get? w = some ⟨n.kind, if policy.keepsNames then n.opgroup else none, sequence⟩
  order : ∀ {v v' w w'}, copies.get v = .ok w → copies.get v' = .ok w' → guest.graph.MadeBefore v v' → d.graph.MadeBefore w w'
  edge : ∀ {e l}, guest.graph.edges.get? e = some l →
    ∃! e', host.graph.edges.get? e' = none ∧ ∃ m, d.graph.edges.get? e' = some m ∧ copies.MapsLink l m
  edge_cases : ∀ {e m}, d.graph.edges.get? e = some m → host.graph.edges.get? e = some m ∨
    host.graph.edges.get? e = none ∧ ∃ e₀ l, guest.graph.edges.get? e₀ = some l ∧ copies.MapsLink l m
  apart : ∀ {e m}, d.graph.edges.get? e = some m → (host.graph.Live m.source.vertex ↔ host.graph.Live m.target.vertex)
  old_node : ∀ {w n}, host.graph.vertices.get? w = some n → d.graph.vertices.get? w = some n
  old_edge : ∀ {e m}, host.graph.edges.get? e = some m → d.graph.edges.get? e = some m
  others : d = { host with
    graph := d.graph, boundary := d.boundary, opgroups := mergedOpgroups policy host.opgroups guest.opgroups }

lemma copyIn_live (hhost : host.graph.Valid) (hguest : guest.graph.Valid) (hrun : copyIn guest policy host = .ok copies d)
    (hv : copies.get v = .ok w) : guest.graph.Live v := by
  obtain ⟨_, _, hrest⟩ := bind_ask_eq_ok.mp hrun
  obtain ⟨copies', _, hgraph, hrest⟩ := bind_eq_ok.mp hrest
  obtain ⟨g, hcopy, rfl⟩ := onGraph_eq_ok.mp hgraph
  have hsame : copies' = copies := by
    split at hrest <;> cases hrest <;> rfl
  refine (mem_map_bySequence hguest).mp ?_
  rw [← copyIn_keys hhost hcopy, hsame]
  exact Copies.get_eq_ok hv

lemma copyIn_embeds (hhost : host.WellFormed) (hguest : guest.WellFormed) (hrun : copyIn guest policy host = .ok copies d) :
    Embeds policy copies host guest d := by
  have hvalid := hhost.valid
  have hvalid' := hguest.valid
  have hlive : ∀ {v w}, copies.get v = .ok w → guest.graph.Live v := copyIn_live hvalid hvalid' hrun
  obtain ⟨_, g, ι, rfl, hcopy, hcopies⟩ := copyIn_eq_ok hhost.wired hguest.wired hrun
  have hget : ∀ {v w}, copies.get v = .ok w → ι v = w := fun hv =>
    Except.ok.inj ((hcopies _ (hlive hv)).symm.trans hv)
  have hmap : ∀ {l}, guest.graph.HasLink l → copies.MapsLink l (l.map ι) := fun hl =>
    ⟨hcopies _ (hvalid'.source_live hl), rfl, hcopies _ (hvalid'.target_live hl), rfl, rfl⟩
  have heq : ∀ {l m}, copies.MapsLink l m → m = l.map ι := by
    rintro l ⟨⟨s, i⟩, ⟨t, j⟩, k⟩ ⟨hs, rfl, ht, rfl, rfl⟩
    obtain rfl : ι l.source.vertex = s := hget hs
    obtain rfl : ι l.target.vertex = t := hget ht
    rfl
  -- an edge that was not there before is the copy of an edge
  have hnew : ∀ {e m}, g.edges.get? e = some m → (∃ l, guest.graph.HasLink l ∧ m = l.map ι) →
      host.graph.edges.get? e = none := by
    rintro e m he ⟨l, hl, rfl⟩
    by_contra hne
    obtain ⟨_, hm'⟩ := Option.ne_none_iff_exists'.mp hne
    have hsame := Option.mem_unique (hcopy.kept hm') he
    exact (hcopy.toHosts.not_hasLink hvalid (hvalid'.source_live hl) ⟨e, hm'⟩).1 (by rw [hsame]; rfl)
  have hcases : ∀ {e m}, g.edges.get? e = some m → host.graph.edges.get? e = some m ∨
      ∃ l, guest.graph.HasLink l ∧ m = l.map ι := by
    intro e m he
    rcases (hcopy.links m).mp ⟨e, he⟩ with ⟨e', he'⟩ | hcopied
    · exact .inl (hcopy.simple (hcopy.kept he') he ▸ he')
    · exact .inr hcopied
  exact
    { total := ⟨fun ⟨_, hv⟩ => hlive hv, fun hv => ⟨_, hcopies _ hv⟩⟩
      onto := by
        refine fun {w} => ⟨fun ⟨v, hv⟩ => ?_, fun ⟨hw, hnot⟩ => ?_⟩
        · rw [← hget hv]
          exact ⟨hcopy.toHosts.live_new (hlive hv), hcopy.toHosts.not_live (hlive hv)⟩
        · obtain ⟨n, hn⟩ := live_iff.mp hw
          rcases hcopy.cases hn with hold | ⟨v, hv, rfl⟩
          · exact absurd (live_of_get? hold) hnot
          · exact ⟨v, hcopies v hv⟩
      injective := fun hv hv' => hcopy.injective (hlive hv) (hlive hv') ((hget hv).trans (hget hv').symm)
      node := fun hv hn => by
        obtain ⟨_, _, sequence, hnode, rfl, rfl⟩ := hcopy.new hn
        exact ⟨sequence, hget hv ▸ hnode⟩
      order := fun hv hv' hbefore => hget hv ▸ hget hv' ▸ hcopy.order hbefore
      edge := fun {e l} he => by
        obtain ⟨e', he'⟩ := (hcopy.links (l.map ι)).mpr (.inr ⟨l, ⟨e, he⟩, rfl⟩)
        refine ⟨e', ⟨hnew he' ⟨l, ⟨e, he⟩, rfl⟩, _, he', hmap ⟨e, he⟩⟩, ?_⟩
        rintro _ ⟨_, m, hm, hmaps⟩
        exact hcopy.simple (heq hmaps ▸ hm) he'
      edge_cases := fun {e m} he => by
        refine (hcases he).imp_right fun hcopied => ⟨hnew he hcopied, ?_⟩
        obtain ⟨l, ⟨e₀, hl⟩, rfl⟩ := hcopied
        exact ⟨e₀, l, hl, hmap ⟨e₀, hl⟩⟩
      apart := fun {e m} he => by
        rcases hcases he with hold | ⟨l, hl, rfl⟩
        · exact iff_of_true (hvalid.source_live ⟨e, hold⟩) (hvalid.target_live ⟨e, hold⟩)
        · exact iff_of_false (hcopy.toHosts.not_live (hvalid'.source_live hl)) (hcopy.toHosts.not_live (hvalid'.target_live hl))
      old_node := hcopy.old
      old_edge := hcopy.kept
      others := rfl }

/-- **`d` has the units of both circuits**, with the ends of the host or copies of those of `guest`, and they share none. -/
def JoinsUnits (copies : Copies) (host guest d : Circuit) : Prop :=
  ∀ u, (host.boundary.get? u = none ∨ guest.boundary.get? u = none) ∧
    ∀ ends, d.boundary.get? u = some ends ↔ host.boundary.get? u = some ends ∨
      ∃ ends₀, guest.boundary.get? u = some ends₀ ∧ copies.getEnds ends₀ = .ok ends

lemma IsMerged.joinsUnits (h : IsMerged policy copies ι host guest d) (hguest : guest.WellFormed)
    (hmerge : host.checkMerge guest = .ok ()) : JoinsUnits copies host guest d := by
  intro u
  cases hu : guest.boundary.get? u with
  | none => exact ⟨.inr rfl, fun ends => by rw [h.boundary, hu]; simp⟩
  | some ends₀ =>
    have hnone := checkMerge_eq_ok hmerge hu
    refine ⟨.inl hnone, fun ends => ?_⟩
    rw [h.boundary, hu, hnone]
    simp [getEnds_of_live h.get hguest.toFramed hu]

lemma IsMerged.embeds (h : IsMerged policy copies ι host guest d) (hhost : host.WellFormed) (hguest : guest.WellFormed) :
    Embeds policy copies host guest d := by
  have hembeds := copyIn_embeds hhost hguest h.copied
  exact ⟨hembeds.total, hembeds.onto, hembeds.injective, hembeds.node, hembeds.order, hembeds.edge, hembeds.edge_cases,
    hembeds.apart, hembeds.old_node, hembeds.old_edge, h.others⟩

/-- **A circuit is embedded or refused.** It is refused just if the policy does not allow its opgroups or, where its units
    are to be joined to those of the host, the two circuits clash; and then the host is as it was. -/
theorem embeds_or_refuses (hhost : host.WellFormed) (hguest : guest.WellFormed) (policy : OpgroupPolicy) :
    ((policy.Refuses host.opgroups guest.opgroups ∧ ∃ e, copyIn guest policy host = .error e host) ∨
      (¬ policy.Refuses host.opgroups guest.opgroups ∧ ∃ copies d, copyIn guest policy host = .ok copies d ∧
        Embeds policy copies host guest d ∧ d.boundary = host.boundary)) ∧
    (((policy.Refuses host.opgroups guest.opgroups ∨ host.Clashes guest) ∧ ∃ e, mergeIn guest policy host = .error e host) ∨
      (¬ (policy.Refuses host.opgroups guest.opgroups ∨ host.Clashes guest) ∧
        ∃ copies d, mergeIn guest policy host = .ok copies d ∧ Embeds policy copies host guest d ∧
          JoinsUnits copies host guest d)) := by
  cases hpolicy : policy.check host.opgroups guest.opgroups with
  | error e =>
    have hrefuses : policy.Refuses host.opgroups guest.opgroups := by
      by_contra hnot
      cases (OpgroupPolicy.check_iff.mpr hnot).symm.trans hpolicy
    have hask : (ask fun host => policy.check host.opgroups guest.opgroups : Edit Unit) host = .error e host :=
      ask_of_error hpolicy
    exact ⟨.inl ⟨hrefuses, e, bind_error hask⟩, .inl ⟨.inl hrefuses, e, bind_error hask⟩⟩
  | ok _ =>
    have hallows := OpgroupPolicy.check_iff.mp hpolicy
    obtain ⟨copies, g, ι, hcopyIn, _, _⟩ := copyIn_run hhost.wired hguest.wired hpolicy
    refine ⟨.inr ⟨hallows, copies, _, hcopyIn, copyIn_embeds hhost hguest hcopyIn, rfl⟩, ?_⟩
    have hask : (ask fun host => policy.check host.opgroups guest.opgroups : Edit Unit) host = .ok () host :=
      ask_of_ok hpolicy
    cases hmerge : host.checkMerge guest with
    | error e =>
      have hclash : host.Clashes guest := by
        by_contra hnot
        cases (checkMerge_iff.mpr hnot).symm.trans hmerge
      have herror : (ask fun host => host.checkMerge guest : Edit Unit) host = .error e host := ask_of_error hmerge
      exact .inl ⟨.inr hclash, e, (bind_ok hask).trans (bind_error herror)⟩
    | ok _ =>
      obtain ⟨copies, d, ι, hrun, hmerged⟩ := mergeIn_run hhost.wired hguest.wired hpolicy hmerge
      exact .inr ⟨not_or.mpr ⟨hallows, checkMerge_iff.mp hmerge⟩, copies, d, hrun, hmerged.embeds hhost hguest,
        hmerged.joinsUnits hguest hmerge⟩

/-- Two circuits with an opgroup of one name. They can be merged, as it has the same signature in both, but the name cannot
    be kept apart from the host's. -/
theorem embeds_or_refuses_named : ∃ host guest copies d e,
    (ofUnits 1 0).edited (discard (addOp .reset [.qubit 0] (some "r"))) = .ok host ∧
    (ofUnits 0 0).edited (do
      addUnit (.qubit 1)
      discard (addOp .reset [.qubit 1] (some "r"))) = .ok guest ∧
    mergeIn guest .merge host = .ok copies d ∧ Embeds .merge copies host guest d ∧ JoinsUnits copies host guest d ∧
    copyIn guest .preserve host = .error e host := by
  simp only [exists_and_left]
  refine exists_run fun host hhost => exists_run fun guest hguest => ?_
  obtain ⟨d, hd, _⟩ : ∃ d, host.edited (mergeIn guest .merge) = .ok d ∧ True :=
    of_run hhost (of_run hguest (by decide +kernel))
  obtain ⟨e, _, he, _⟩ : ∃ e d, copyIn guest .preserve host = .error e d ∧ True :=
    of_run hhost (of_run hguest (by decide +kernel))
  have hwell := wellFormed_edited hhost
  have hwell' := wellFormed_edited hguest
  obtain ⟨_, hrun⟩ := edited_eq_ok.mp hd
  rcases (embeds_or_refuses hwell hwell' .merge).2 with ⟨_, _, herror⟩ | ⟨_, copies, d, hmerged, hembeds, hunits⟩
  · cases herror.symm.trans hrun
  rcases (embeds_or_refuses hwell hwell' .preserve).1 with ⟨_, e, herror⟩ | ⟨_, _, _, hcopied, _⟩
  · exact ⟨copies, d, hmerged, hembeds, hunits, e, herror⟩
  · cases hcopied.symm.trans he

end Circuit

/-! # `Circuit.parallel` -/

/-! ## The walk over a copy -/

namespace Graph

open List

variable {g g' guest : Graph} {ι : Vertex → Vertex} {keepNames : Bool} {v w : Vertex}

lemma IsCopy.before_iff (h : IsCopy g guest g' ι keepNames) (hg : g.Valid) (hguest : guest.Valid) :
    g'.net.Before v w ↔ g.net.Before v w ∨ ∃ x y, guest.net.Before x y ∧ ι x = v ∧ ι y = w := by
  constructor
  · intro hvw
    cases hvw with
    | @link l hl =>
      rcases (h.links l).mp hl with hold | ⟨_, hl0, rfl⟩
      · exact .inl (.link hold)
      · exact .inr ⟨_, _, .link hl0, rfl, rfl⟩
    | @hazard a b ha hb hak hbl hs =>
      have hvertex := congrArg Pin.vertex hs
      have hindex := congrArg Pin.index hs
      rcases (h.links a).mp ha with hold | ⟨_, ha0, rfl⟩ <;> rcases (h.links b).mp hb with hold' | ⟨_, hb0, rfl⟩
      · exact .inl (.hazard hold hold' hak hbl hs)
      · exact absurd hvertex (h.toHosts.not_hasLink hg (hguest.source_live hb0) hold).1
      · exact absurd hvertex.symm (h.toHosts.not_hasLink hg (hguest.source_live ha0) hold').1
      · have hsame := h.injective (hguest.source_live ha0) (hguest.source_live hb0) hvertex
        exact .inr ⟨_, _, .hazard ha0 hb0 hak hbl (Pin.ext hsame hindex), rfl, rfl⟩
  · rintro (hvw | ⟨x, y, hxy, rfl, rfl⟩)
    · cases hvw with
      | link hl => exact .link ((h.links _).mpr (.inl hl))
      | hazard ha hb hak hbl hs => exact .hazard ((h.links _).mpr (.inl ha)) ((h.links _).mpr (.inl hb)) hak hbl hs
    · cases hxy with
      | @link l hl => exact Net.Before.link (l := l.map ι) ((h.links _).mpr (.inr ⟨l, hl, rfl⟩))
      | @hazard a b ha hb hak hbl hs =>
        exact Net.Before.hazard (a := a.map ι) (b := b.map ι) ((h.links _).mpr (.inr ⟨a, ha, rfl⟩))
          ((h.links _).mpr (.inr ⟨b, hb, rfl⟩)) hak hbl (congrArg (Pin.map ι) hs)

lemma IsCopy.walk_eq {unit unitG unitD : Pin → UnitId} {rank : Vertex → ℕ} (h : IsCopy g guest g' ι keepNames)
    (hg : g.Valid) (hguest : guest.Valid) (ht : g.net.Threaded unit) (htG : guest.net.Threaded unitG)
    (htD : g'.net.Threaded unitD) (hrank : g'.net.Ranked rank) (hseq : g.Sequenced) :
    g'.walk = g.walk ++ guest.walk.map ι := by
  have hbefore : ∀ {x y}, (x, y) ∈ g'.linkPairs ++ g'.hazards ↔
      g.net.Before x y ∨ ∃ x' y', guest.net.Before x' y' ∧ ι x' = x ∧ ι y' = y :=
    (mem_pairs_iff h.valid htD).trans (h.before_iff hg hguest)
  have hhost : ∀ {x}, x ∈ g.bySequence.map Prod.fst → g.Live x := (mem_map_bySequence hg).mp
  have hcopy : ∀ {x}, x ∈ guest.bySequence.map Prod.fst → guest.Live x := (mem_map_bySequence hguest).mp
  unfold walk walkBy
  have hranked : ∀ x y, (x, y) ∈ g'.linkPairs ++ g'.hazards → rank x < rank y := fun x y hxy =>
    hrank x y ((mem_pairs_iff h.valid htD).mp hxy)
  rw [h.made hseq, walkFor_append hranked]
  · refine congrArg₂ (· ++ ·) (walkFor_congr fun x hx y hy => ?_) ?_
    · rw [hbefore, mem_pairs_iff hg ht]
      refine or_iff_left ?_
      rintro ⟨x', _, hxy, rfl, _⟩
      exact h.toHosts.not_live (live_of_before htG hxy).1 (hhost hx)
    · rw [length_map]
      refine walkFor_map (fun x hx y hy => h.injective (hcopy hx) (hcopy hy)) fun x hx y hy => ?_
      rw [hbefore, mem_pairs_iff hguest htG]
      constructor
      · rintro (hxy | ⟨x', y', hxy, hx', hy'⟩)
        · exact absurd (live_of_before ht hxy).1 (h.toHosts.not_live (hcopy hx))
        · obtain ⟨hlx, hly⟩ := live_of_before htG hxy
          rwa [← h.injective hlx (hcopy hx) hx', ← h.injective hly (hcopy hy) hy']
      · exact fun hxy => .inr ⟨x, y, hxy, rfl, rfl⟩
  · intro w hw y hy hwy
    obtain ⟨x, hx, rfl⟩ := List.mem_map.mp hw
    rcases hbefore.mp hwy with hold | ⟨_, y', hnew, _, rfl⟩
    · exact h.toHosts.not_live (hcopy hx) (live_of_before ht hold).1
    · exact h.toHosts.not_live (live_of_before htG hnew).2 (hhost hy)

end Graph

namespace Circuit

open Wireloom.Graph List

variable {c guest d : Circuit} {ι : Vertex → Vertex} {unit unitG unitD : Pin → UnitId} {copies : Copies} {v : Vertex}

/-! ## Circuits side by side -/

variable (hc : c.WellFormed) (hguest : guest.WellFormed)

include hc hguest in
/-- **Two circuits stand side by side** if they share no unit and their opgroups agree. -/
theorem parallel_run (hmerge : c.checkMerge guest = .ok ()) (hagree : c.opgroups.Agree guest.opgroups) :
    ∃ d ι, c.parallel guest = .ok d ∧ IsAppended ι c guest d ∧ IsCopy c.graph guest.graph d.graph ι true := by
  obtain ⟨_, d, ι, hrun, hmerged⟩ := mergeIn_run hc.wired hguest.wired (OpgroupPolicy.check_merge_iff.mpr hagree) hmerge
  refine ⟨d.plusPhase guest.phase, ι, edited_eq_ok.mpr ⟨(), bind_ok hrun⟩, ?_, hmerged.isCopy⟩
  exact (hmerged.chained hmerge).isAppended hmerged.wellFormed hmerged.others

include hc hguest in
lemma parallel_eq_ok (hrun : c.parallel guest = .ok d) : c.checkMerge guest = .ok () ∧ c.opgroups.Agree guest.opgroups ∧
      ∃ ι, IsAppended ι c guest d ∧ IsCopy c.graph guest.graph d.graph ι true := by
  obtain ⟨a, hedit⟩ := edited_eq_ok.mp hrun
  obtain ⟨_, _, hmergeIn, _⟩ := bind_eq_ok.mp hedit
  obtain ⟨hpolicy, hmerge, _⟩ := mergeIn_eq_ok hc hguest hmergeIn
  have hagree := OpgroupPolicy.check_merge_iff.mp hpolicy
  obtain ⟨_, ι, hrun1, happ⟩ := parallel_run hc hguest hmerge hagree
  cases hrun1.symm.trans hrun
  exact ⟨hmerge, hagree, ι, happ⟩

/-- **The commands of two circuits side by side** are those of the first, and then those of the second. -/
theorem Chained.commands_of_copy (hch : Chained ι c guest d) (hcopy : IsCopy c.graph guest.graph d.graph ι true)
    (hapart : ∀ u ∈ guest.units, u ∉ c.units) (hc : c.Wired unit) (hguest : guest.Wired unitG) (hd : d.Wired unitD)
    (hseq : c.Sequenced) : d.commands = c.commands ++ guest.commands.map (Command.move id ι) := by
  obtain ⟨_, _, _, hrank⟩ := hd.exists_rank
  have hresets : ∀ cmd, cmd ∉ c.joinResets guest ι := by
    intro cmd hcmd
    obtain ⟨u, host, next, n, hhost, hnext, _⟩ := mem_joinResets.mp hcmd
    exact hapart u (mem_units_iff.mpr ⟨next, hnext⟩) (mem_units_iff.mpr ⟨host, hhost⟩)
  have hcommand : ∀ v, guest.graph.Live v → d.commandAt unitD (ι v) = (guest.commandAt unitG v).map (Command.move id ι) := by
    intro v hv
    cases hcmd : guest.commandAt unitG v with
    | some cmd => exact hch.commandAt_guest hc hguest hd hcmd
    | none =>
      refine Option.eq_none_iff_forall_ne_some.mpr fun cmd hcmd' => ?_
      rcases hch.commandAt_copy hc hguest hd hv hcmd' with ⟨_, hcmd0, _⟩ | hreset
      · cases hcmd.symm.trans hcmd0
      · exact hresets cmd hreset
  rw [hd.commands_eq, hcopy.walk_eq hc.valid hguest.valid hc.threaded hguest.threaded hd.threaded hrank hseq,
    filterMap_append, hc.commands_eq, hguest.commands_eq, filterMap_map, map_filterMap]
  refine congrArg₂ (· ++ ·) (filterMap_congr fun v hv => ?_) (filterMap_congr fun v hv => hcommand v (hguest.mem_walk.mp hv))
  obtain ⟨n, hn⟩ := live_iff.mp (hc.mem_walk.mp hv)
  exact hch.commandAt_host hc hd (live_of_get? hn) (live_iff.mpr ⟨n, hcopy.old hn⟩)

/-! ## One after the other without a common unit -/

lemma tieUnit_of_new {u : UnitId} {ends : Ends} (hu : c.boundary.get? u = none) :
    tieUnit u ends c = .ok ⟨⟩ (c.withEnds u ends) := by
  rw [tieUnit, bind_get, hu]
  rfl

lemma tieUnits_of_new {l : List (UnitId × Ends)} {move : Ends → Ends}
    (hends : ∀ x ∈ l, copies.getEnds x.2 = .ok (move x.2)) (hnodup : (l.map Prod.fst).Nodup)
    (hnew : ∀ x ∈ l, c.boundary.get? x.1 = none) :
    (l.forM fun x => (ask fun _ => copies.getEnds x.2) >>= tieUnit x.1 : Edit PUnit) c =
      (l.forM fun x => (ask fun _ => copies.getEnds x.2) >>= fun ends => modify (·.withEnds x.1 ends) : Edit PUnit) c := by
  induction l generalizing c with
  | nil => rfl
  | cons x rest ih =>
    obtain ⟨hx, hrest⟩ := nodup_cons.mp hnodup
    obtain ⟨hnone, hnew⟩ := forall_mem_cons.mp hnew
    obtain ⟨hend, hends⟩ := forall_mem_cons.mp hends
    have hask : (ask fun _ => copies.getEnds x.2 : Edit Ends) c = .ok (move x.2) c := ask_of_ok hend
    have htie := (bind_ok hask).trans (tieUnit_of_new hnone)
    have hregister : ((ask fun _ => copies.getEnds x.2) >>= fun ends => modify (·.withEnds x.1 ends) : Edit PUnit) c =
      .ok ⟨⟩ (c.withEnds x.1 (move x.2)) := bind_ok hask
    have hrun := ih (c := c.withEnds x.1 (move x.2)) hends hrest fun y hy => by
      have hne : y.1 ≠ x.1 := fun heq => hx (List.mem_map.mpr ⟨y, hy, heq⟩)
      exact (SortedMap.get?_insert_other _ hne _).trans (hnew y hy)
    refine (bind_ok htie).trans (hrun.trans ?_)
    exact (bind_ok (f := fun _ => rest.forM _) hregister).symm

include hc hguest in
lemma parallel_of_sequential (hapart : ∀ u ∈ guest.units, u ∉ c.units)
    (hrun : c.sequential guest = .ok d) : c.parallel guest = .ok d := by
  obtain ⟨hfits, _⟩ := sequential_eq_ok hc hguest hrun
  have hmerge : c.checkMerge guest = .ok () := by
    rw [checkMerge_iff]
    rintro ⟨u, hu, hshared | ⟨w, hw, hregister, hkind⟩⟩
    · exact hapart u hu hshared
    · exact hkind (hfits.registers u hu (hapart u hu) w hw hregister).1
  have hask : (ask fun host => host.checkMerge guest : Edit Unit) c = .ok () c := ask_of_ok hmerge
  obtain ⟨a, hedit⟩ := edited_eq_ok.mp hrun
  obtain ⟨_, hrename, hrest⟩ := bind_ask_eq_ok.mp hedit
  cases (rename_empty guest).symm.trans hrename
  obtain ⟨_, c1, hchecks, hrest1⟩ := bind_eq_ok.mp hrest
  obtain rfl : c1 = c := by
    rcases forM_ask (fun (x : UnitId × Ends) host => host.checkAppend guest x.1 x.2) guest.boundary.entries c with
      ⟨_, hok⟩ | ⟨_, e, herror⟩
    · exact (ok_unique hok hchecks).2.symm
    · cases herror.symm.trans hchecks
  obtain ⟨copies, c2, hcopyIn, hrest2⟩ := bind_eq_ok.mp hrest1
  obtain ⟨_, c3, hties, hphase⟩ := bind_eq_ok.mp hrest2
  obtain ⟨hpolicy, g, _, hc2, _, hcopies⟩ := copyIn_eq_ok hc.wired hguest.wired hcopyIn
  have hnew : ∀ x ∈ guest.boundary.entries, c2.boundary.get? x.1 = none := fun x hx => by
    rw [hc2]
    exact checkMerge_eq_ok hmerge (SortedMap.get?_iff_mem.mpr hx)
  have hregister := (tieUnits_of_new (getEnds_copies hcopies hguest.toFramed) (SortedMap.nodup_keys guest.boundary)
    hnew).symm.trans hties
  have hmerged : mergeIn guest .merge c1 = .ok copies c3 := (bind_ok (ask_of_ok hpolicy)).trans
    ((bind_ok hask).trans ((bind_ok hcopyIn).trans (bind_ok hregister)))
  exact edited_eq_ok.mpr ⟨a, (bind_ok hmerged).trans hphase⟩

/-- **Circuits side by side.** If two circuits share no unit, one can stand beside the other where it can follow on it, with
    the very same outcome. Whatever stands side by side has the units of both, which are different, holds nothing but what
    they hold, and runs the commands of the first and then those of the second. -/
theorem parallel_beside (hc : c.WellFormed) (hguest : guest.WellFormed) :
    ((∀ u ∈ guest.units, u ∉ c.units) → ∀ d, c.sequential guest = .ok d → c.parallel guest = .ok d) ∧
    ∀ d, c.parallel guest = .ok d → (∀ u, u ∈ d.units ↔ u ∈ c.units ∨ u ∈ guest.units) ∧ (∀ u ∈ guest.units, u ∉ c.units) ∧
      ∃ ι : Vertex → Vertex, (∀ w n, d.graph.vertices.get? w = some n → c.graph.vertices.get? w = some n ∨
          ∃ v n₀, guest.graph.vertices.get? v = some n₀ ∧ ι v = w ∧ n.kind = n₀.kind ∧ n.opgroup = n₀.opgroup) ∧
        (c.Sequenced → d.commands = c.commands ++ guest.commands.map (Command.move id ι)) := by
  refine ⟨fun hapart d hrun => parallel_of_sequential hc hguest hapart hrun, fun d hrun => ?_⟩
  obtain ⟨hmerge, _, ι, happ, hcopy⟩ := parallel_eq_ok hc hguest hrun
  have hapart : ∀ u ∈ guest.units, u ∉ c.units := fun u hu hshared =>
    checkMerge_iff.mp hmerge ⟨u, hu, .inl hshared⟩
  refine ⟨fun u => happ.toChained.mem_units, hapart, ι, fun w n hn => ?_, fun hseq =>
    happ.toChained.commands_of_copy hcopy hapart hc.wired hguest.wired happ.wellFormed.wired hseq⟩
  refine (hcopy.cases hn).imp_right fun ⟨v, hv, heq⟩ => ?_
  obtain ⟨n₀, hn₀⟩ := live_iff.mp hv
  obtain ⟨_, _, _, hget, rfl, rfl⟩ := hcopy.new hn₀
  rw [heq, hn] at hget
  cases hget
  exact ⟨v, n₀, hn₀, heq, rfl, rfl⟩

/-- A measured qubit, and beside it a qubit that is created: it is not reset, as it follows on nothing. -/
theorem parallel_beside_created : ∃ c guest d ι,
    (ofUnits 1 1).edited (discard (addOp .measure [.qubit 0, .bit 0] none)) = .ok c ∧
    (ofUnits 0 0).edited (do
      addUnit (.qubit 1)
      createQubit (.qubit 1)
      discard (addOp (.gate .h) [.qubit 1] none)) = .ok guest ∧
    c.sequential guest = .ok d ∧ c.parallel guest = .ok d ∧
    d.commands = c.commands ++ guest.commands.map (Command.move id ι) := by
  simp only [exists_and_left]
  refine exists_run fun c hc => exists_run fun guest hguest => ?_
  obtain ⟨d, hd, _⟩ : ∃ d, c.sequential guest = .ok d ∧ True := of_run hc (of_run hguest (by decide +kernel))
  have hapart : ∀ u ∈ guest.units, u ∉ c.units := of_run hc (of_run hguest (by decide +kernel))
  have hwell := wellFormed_edited hc
  have hwell' := wellFormed_edited hguest
  obtain ⟨_, hrun⟩ := edited_eq_ok.mp hc
  obtain ⟨_, hadd⟩ := discard_eq_ok.mp hrun
  have hseq : c.Sequenced := (Reachable.addOp (.ofUnits 1 1) hadd).sequenced
  obtain ⟨hsame, hbeside⟩ := parallel_beside hwell hwell'
  have hparallel := hsame hapart d hd
  obtain ⟨_, _, ι, _, hcommands⟩ := hbeside d hparallel
  exact ⟨d, hd, hparallel, ι, hcommands hseq⟩

end Circuit

end Wireloom

/-! # `Circuit.Chained.equivalent` -/

namespace Wireloom.Circuit

open Wireloom.Graph List Option

variable {c c' guest guest' d d' : Circuit} {ι ιG κ κ' : Vertex → Vertex} {unit unitG : Pin → UnitId} {u : UnitId}
  {v w : Vertex} {l m : Link} {p q : Pin} {ends : Ends} {ρ : Renaming} {reverseOp : Op → Except CircuitError Op}

/-! ## What is joined -/

section Joined

variable (h : Equivalent ι c c') (hG : Equivalent ιG guest guest')
include h hG

lemma Equivalent.wasEnd_iff (hv : c.graph.Live v) : c'.WasEnd guest' (ι v) ↔ c.WasEnd guest v := by
  constructor
  · rintro ⟨u, _, _, hhost', hnext', heq⟩
    obtain ⟨host, hhost, rfl⟩ := h.exists_ends hhost'
    obtain ⟨next, hnext, rfl⟩ := hG.exists_ends hnext'
    exact ⟨u, host, next, hhost, hnext, h.injective (h.sound.wellFormed.live_output hhost) hv heq⟩
  · rintro ⟨u, host, next, hhost, hnext, rfl⟩
    exact ⟨u, host.map ι, next.map ιG, h.ends_eq hhost, hG.ends_eq hnext, rfl⟩

lemma Equivalent.wasStart_iff (hv : guest.graph.Live v) : c'.WasStart guest' (ιG v) ↔ c.WasStart guest v := by
  constructor
  · rintro ⟨u, _, _, hhost', hnext', heq⟩
    obtain ⟨host, hhost, rfl⟩ := h.exists_ends hhost'
    obtain ⟨next, hnext, rfl⟩ := hG.exists_ends hnext'
    exact ⟨u, host, next, hhost, hnext, hG.injective (hG.sound.wellFormed.live_input hnext) hv heq⟩
  · rintro ⟨u, host, next, hhost, hnext, rfl⟩
    exact ⟨u, host.map ι, next.map ιG, h.ends_eq hhost, hG.ends_eq hnext, rfl⟩

lemma Equivalent.spliced_iff (hv : guest.graph.Live v) : c'.Spliced guest' (ιG v) ↔ c.Spliced guest v := by
  unfold Spliced
  rw [h.wasStart_iff hG hv, hG.kind?_eq hv]

lemma Equivalent.fits (hfits : c.Fits guest) : c'.Fits guest' where
  ends hhost' hnext' hdiscard := by
    obtain ⟨_, hhost, rfl⟩ := h.exists_ends hhost'
    obtain ⟨_, hnext, rfl⟩ := hG.exists_ends hnext'
    have hdiscard' := (h.kind?_eq (h.sound.wellFormed.live_output hhost)).symm.trans hdiscard
    exact (hG.kind?_eq (hG.sound.wellFormed.live_input hnext)).trans (hfits.ends hhost hnext hdiscard')
  registers := by
    rw [h.units_eq, hG.units_eq]
    exact hfits.registers
  opgroups := by
    rw [h.opgroups, hG.opgroups]
    exact hfits.opgroups

lemma Equivalent.checkMerge_eq : c'.checkMerge guest' = c.checkMerge guest := by
  simp only [checkMerge, h.units_eq, hG.units_eq, h.hasUnit_eq]

end Joined

/-! ## Chained circuits -/

namespace Chained

variable (hch : Chained κ c guest d) (hch' : Chained κ' c' guest' d') (h : Equivalent ι c c') (hG : Equivalent ιG guest guest')
include hch h hG

lemma map_leads (hp : guest.graph.Live p.vertex) (hq : Leads κ c guest p q) :
    Leads κ' c' guest' (p.map ιG) (q.map (glue κ c guest ι (κ' ∘ ιG))) := by
  cases hq with
  | copied hspliced =>
    have hmap : (p.map κ).map (glue κ c guest ι (κ' ∘ ιG)) = (p.map ιG).map κ' := Pin.ext (hch.glue_guest hp) rfl
    rw [hmap]
    exact .copied (mt (h.spliced_iff hG hp).mp hspliced)
  | @joined u host next l hhost hnext hk hv hl ht =>
    have hmap : l.source.map (glue κ c guest ι (κ' ∘ ιG)) = (l.map ι).source :=
      Pin.ext (glue_host (h.valid.source_live hl)) rfl
    rw [hmap]
    refine .joined (h.ends_eq hhost) (hG.ends_eq hnext) ?_ (congrArg ιG hv) (h.hasLink hl) (congrArg ι ht)
    rwa [← hG.kind?_eq (hG.sound.wellFormed.live_input hnext)] at hk

include hch' in
lemma map_link (hd : d.WellFormed) (hm : d.graph.HasLink m) : d'.graph.HasLink (m.map (glue κ c guest ι (κ' ∘ ιG))) := by
  have hhost : ∀ {p : Pin}, c.graph.Live p.vertex → p.map (glue κ c guest ι (κ' ∘ ιG)) = p.map ι := fun hp =>
    Pin.ext (glue_host hp) rfl
  have hguest : ∀ {p : Pin}, guest.graph.Live p.vertex →
      (p.map κ).map (glue κ c guest ι (κ' ∘ ιG)) = (p.map ιG).map κ' := fun hp => Pin.ext (hch.glue_guest hp) rfl
  cases (hch.link_iff h.sound.wellFormed.wired hG.sound.wellFormed.wired hd.wired).mp hm with
  | host hl hend =>
    have htarget := h.valid.target_live hl
    show d'.graph.HasLink ⟨m.source.map _, m.target.map _, m.kind⟩
    rw [hhost (h.valid.source_live hl), hhost htarget]
    exact hch'.host_link (h.hasLink hl) (mt (h.wasEnd_iff hG htarget).mp hend)
  | @guest l q hl hq =>
    show d'.graph.HasLink ⟨q.map _, (l.target.map κ).map _, l.kind⟩
    rw [hguest (hG.valid.target_live hl)]
    exact hch'.link_of_leads (hG.hasLink hl) (hch.map_leads h hG (hG.valid.source_live hl) hq)
  | @reset u host next l hu hnext hcreate hl ht =>
    have hinput := hG.sound.wellFormed.live_input hnext
    show d'.graph.HasLink ⟨l.source.map _, (Pin.map κ ⟨next.input, 0⟩).map _, l.kind⟩
    rw [hhost (h.valid.source_live hl), hguest hinput]
    exact hch'.reset_link (h.ends_eq hu) (hG.ends_eq hnext) ((hG.kind?_eq hinput).trans hcreate) (h.hasLink hl) (congrArg ι ht)

include hch' in
/-- **Chained circuits have matched vertices**, in the order in which they were made. -/
theorem map_made : d'.graph.bySequence.map Prod.fst = (d.graph.bySequence.map Prod.fst).map (glue κ c guest ι (κ' ∘ ιG)) := by
  rw [hch.made h.sound.numbered.sequenced, hch'.made h.sound'.numbered.sequenced, h.made, hG.made]
  have hall : (c.graph.bySequence.map Prod.fst).map ι ++ ((guest.graph.bySequence.map Prod.fst).map ιG).map κ' =
      (c.graph.bySequence.map Prod.fst ++ (guest.graph.bySequence.map Prod.fst).map κ).map (glue κ c guest ι (κ' ∘ ιG)) := by
    rw [map_append, List.map_map (g := κ'), map_map (f := κ)]
    refine congrArg₂ _ (map_congr_left fun v hv => ?_) (map_congr_left fun v hv => ?_)
    · exact (glue_host ((mem_map_bySequence h.valid).mp hv)).symm
    · exact (hch.glue_guest ((mem_map_bySequence hG.valid).mp hv)).symm
  rw [hall, List.filter_map]
  refine congrArg _ (filter_congr fun w hw => Bool.eq_iff_iff.mpr ?_)
  show d'.graph.Live (glue κ c guest ι (κ' ∘ ιG) w) ↔ d.graph.Live w
  rcases mem_append.mp hw with hw | hw
  · have hlive := (mem_map_bySequence h.valid).mp hw
    rw [glue_host hlive]
    constructor
    · exact fun hd => hch.live_host hlive (mt (h.wasEnd_iff hG hlive).mpr (hch'.not_wasEnd (h.live hlive) hd))
    · exact fun hd => hch'.live_host (h.live hlive) (mt (h.wasEnd_iff hG hlive).mp (hch.not_wasEnd hlive hd))
  · obtain ⟨v, hv, rfl⟩ := mem_map.mp hw
    have hlive := (mem_map_bySequence hG.valid).mp hv
    rw [hch.glue_guest hlive]
    constructor
    · exact fun hd => hch.live_guest hlive (mt (h.spliced_iff hG hlive).mpr (hch'.not_spliced (hG.live hlive) hd))
    · exact fun hd => hch'.live_guest (hG.live hlive) (mt (h.spliced_iff hG hlive).mp (hch.not_spliced hlive hd))

include hch' in
lemma map_node {n : Node} (hn : d.graph.vertices.get? w = some n) :
    ∃ n', d'.graph.vertices.get? (glue κ c guest ι (κ' ∘ ιG) w) = some n' ∧ n'.kind = n.kind ∧ n'.opgroup = n.opgroup := by
  rcases hch.cases (live_of_get? hn) with ⟨hlive, hend⟩ | ⟨v, hlive, hspliced, rfl⟩
  · obtain ⟨n0, hn0⟩ := Graph.live_iff.mp hlive
    cases mem_unique (hch.host_node hn0 hend) hn
    obtain ⟨n', hn', hsame⟩ := h.node_eq hn0
    rw [glue_host hlive]
    exact ⟨n', hch'.host_node hn' (mt (h.wasEnd_iff hG hlive).mp hend), hsame⟩
  · obtain ⟨n0, hn0⟩ := Graph.live_iff.mp hlive
    obtain ⟨_, hn1, hog1, hkept1, hreset1⟩ := hch.guest_node hn0 hspliced
    cases mem_unique hn1 hn
    obtain ⟨_, hn0', hkind, hog⟩ := hG.node_eq hn0
    obtain ⟨n', hn', hog', hkept', hreset'⟩ := hch'.guest_node hn0' (mt (h.spliced_iff hG hlive).mp hspliced)
    rw [hch.glue_guest hlive]
    refine ⟨n', hn', ?_, hog'.trans (hog.trans hog1.symm)⟩
    by_cases hstart : c.WasStart guest v
    · rw [hreset' ((h.wasStart_iff hG hlive).mpr hstart), hreset1 hstart]
    · rw [hkept' (mt (h.wasStart_iff hG hlive).mp hstart), hkind, hkept1 hstart]

include hch' in
lemma map_boundary (u : UnitId) : d'.boundary.get? u = (d.boundary.get? u).map (Ends.map (glue κ c guest ι (κ' ∘ ιG))) := by
  have hhost : ∀ {ends}, c.boundary.get? u = some ends → glue κ c guest ι (κ' ∘ ιG) ends.input = ι ends.input ∧
      glue κ c guest ι (κ' ∘ ιG) ends.output = ι ends.output := fun hu =>
    ⟨glue_host (h.sound.wellFormed.live_input hu), glue_host (h.sound.wellFormed.live_output hu)⟩
  have hguest : ∀ {ends}, guest.boundary.get? u = some ends → glue κ c guest ι (κ' ∘ ιG) (κ ends.input) = κ' (ιG ends.input) ∧
      glue κ c guest ι (κ' ∘ ιG) (κ ends.output) = κ' (ιG ends.output) := fun hu =>
    ⟨hch.glue_guest (hG.sound.wellFormed.live_input hu), hch.glue_guest (hG.sound.wellFormed.live_output hu)⟩
  rw [hch.boundary, hch'.boundary, h.boundary, hG.boundary]
  cases hu : c.boundary.get? u <;> cases hu' : guest.boundary.get? u <;> simp [joinEnds, Ends.map, *]

end Chained

lemma IsAppended.equivalent (happ : IsAppended κ c guest d) (happ' : IsAppended κ' c' guest' d')
    (h : Equivalent ι c c') (hG : Equivalent ιG guest guest') (hd : d.graph.Numbered) (hd' : d'.graph.Numbered) :
    Equivalent (glue κ c guest ι (κ' ∘ ιG)) d d' :=
  have hch := happ.toChained
  have hch' := happ'.toChained
  .of_made ⟨happ.wellFormed, hd⟩ ⟨happ'.wellFormed, hd'⟩ (hch.map_made hch' h hG) (hch.map_node hch' h hG)
    (fun _ hm => hch.map_link hch' h hG happ.wellFormed hm) (hch.map_boundary hch' h hG)
    (by rw [happ.phase, happ'.phase, h.phase, hG.phase]) (by rw [happ.name, happ'.name, h.name])
    (by rw [happ.opgroups, happ'.opgroups, h.opgroups, hG.opgroups])

variable (h : Equivalent ι c c') (hG : Equivalent ιG guest guest')

include h hG in
lemma appendRenamed_mirrors (ρ : Renaming) :
    Mirrors ι c c' (fun _ => id) (appendRenamed guest ρ) (appendRenamed guest' ρ) := by
  intro a d hrun
  obtain ⟨_, _, _, hrename, hfits, happ⟩ :=
    appendRenamed_eq_ok h.sound.wellFormed hG.sound.wellFormed hrun
  obtain ⟨_, hrename', hR⟩ := rename_mirrors hG hrename
  obtain ⟨d', _, hrun', happ'⟩ :=
    appendRenamed_of_fits h.sound'.wellFormed hG.sound'.wellFormed hrename' (h.fits hR hfits)
  have hlasts := appendRenamed_lasts lasting_numbered
  exact ⟨_, d', hrun', happ.equivalent happ' h hR (hlasts guest ρ _ _ _ h.sound.numbered hrun)
    (hlasts guest' ρ _ _ _ h.sound'.numbered hrun'), fun v hv _ => glue_host hv⟩

include h hG in
lemma parallel_mirrors (hrun : c.parallel guest = .ok d) : ∃ j d', c'.parallel guest' = .ok d' ∧ Equivalent j d d' := by
  obtain ⟨hmerge, hagree, _, happ, _⟩ := parallel_eq_ok h.sound.wellFormed hG.sound.wellFormed hrun
  rw [← h.checkMerge_eq hG] at hmerge
  rw [← h.opgroups, ← hG.opgroups] at hagree
  obtain ⟨d', _, hrun', happ', _⟩ := parallel_run h.sound'.wellFormed hG.sound'.wellFormed hmerge hagree
  exact ⟨_, d', hrun', happ.equivalent happ' h hG (parallel_lasts lasting_numbered h.sound.numbered hrun)
    (parallel_lasts lasting_numbered h.sound'.numbered hrun')⟩

/-! ## Backwards -/

include h in
lemma Equivalent.reversible (hr : c.Reversible reverseOp) : c'.Reversible reverseOp where
  kinds {w n'} hn' := by
    obtain ⟨v, hv, rfl⟩ := h.surjective (live_of_get? hn')
    obtain ⟨n, hn⟩ := Graph.live_iff.mp hv
    obtain ⟨_, hn1, hkind, _⟩ := h.node_eq hn
    cases mem_unique hn' hn1
    rw [hkind]
    exact hr.kinds hn
  linear {m} hm := by
    obtain ⟨l, hl, rfl⟩ := (h.link m).mp hm
    exact hr.linear (l := l) hl

lemma reversed_mirrors {phase : Angle} (hop : KeepsSignature reverseOp) (h : Equivalent ι c c')
    (hrun : c.reversed reverseOp phase = .ok d) : ∃ j d', c'.reversed reverseOp phase = .ok d' ∧ Equivalent j d d' := by
  have hr := h.reversible (reversible_of_ok h.sound.wellFormed hrun)
  obtain ⟨κ, hrev⟩ := reversed_eq_ok hop h.sound.wellFormed hrun
  obtain ⟨d', κ', hrun', hrev'⟩ := reversed_run hop h.sound'.wellFormed hr phase
  obtain ⟨j, hj⟩ := exists_factor hrev.injective (κ' ∘ ι)
  have hpin : ∀ {p : Pin}, c.graph.Live p.vertex → (p.map κ).map j = (p.map ι).map κ' := fun hp => Pin.ext (hj _ hp) rfl
  refine ⟨j, d', hrun', .of_made ⟨hrev.wellFormed, reversed_lasts lasting_numbered hrun⟩
    ⟨hrev'.wellFormed, reversed_lasts lasting_numbered hrun'⟩ ?_ (fun {w n} hn => ?_) (fun m hm => ?_) (fun u => ?_)
    (by rw [hrev.phase, hrev'.phase]) (by rw [hrev.name, hrev'.name, h.name])
    (by rw [hrev.opgroups, hrev'.opgroups, h.opgroups])⟩
  · rw [hrev.made, hrev'.made, h.made, map_reverse, List.map_map, List.map_map (g := j)]
    refine congrArg _ (map_congr_left fun v hv => ?_)
    exact (hj v ((mem_map_bySequence h.valid).mp hv)).symm
  · obtain ⟨v, _, hn0, rfl, hkind1, hog1⟩ := hrev.exists_node hn
    have hv := live_of_get? hn0
    obtain ⟨_, hn0', hkind, hog⟩ := h.node_eq hn0
    obtain ⟨n', hn', hkind', hog'⟩ := hrev'.node hn0'
    rw [hkind, hkind1] at hkind'
    exact ⟨n', by rw [hj v hv]; exact hn', (Except.ok.inj hkind').symm, hog'.trans (hog.trans hog1.symm)⟩
  · obtain ⟨l, hl, rfl⟩ := (hrev.link m).mp hm
    refine (hrev'.link _).mpr ⟨l.map ι, h.hasLink hl, ?_⟩
    show (⟨(l.target.map κ).map j, (l.source.map κ).map j, l.kind⟩ : Link) = _
    rw [hpin (h.valid.target_live hl), hpin (h.valid.source_live hl)]
    rfl
  · rw [hrev.boundary, hrev'.boundary, h.boundary]
    cases hu : c.boundary.get? u with
    | none => rfl
    | some ends =>
      show some (⟨κ' (ι ends.output), κ' (ι ends.input)⟩ : Ends) = some ⟨j (κ ends.output), j (κ ends.input)⟩
      rw [hj _ (h.sound.wellFormed.live_input hu), hj _ (h.sound.wellFormed.live_output hu)]
      rfl

include h in
lemma dagger_mirrors (hrun : c.dagger = .ok d) : ∃ j d', c'.dagger = .ok d' ∧ Equivalent j d d' := by
  unfold dagger
  rw [h.phase]
  exact reversed_mirrors (fun _ _ => Op.signature_dagger) h hrun

/-! ## Under a condition -/

include h in
lemma Equivalent.sameUnits : c.SameUnits c' := by
  refine (sameUnits_iff h.sound.wellFormed.toFramed h.sound'.wellFormed.toFramed).mpr fun s u => ?_
  rw [endAt?, endAt?, h.boundary]
  cases hu : c.boundary.get? u with
  | none => rfl
  | some ends =>
    cases s with
    | first => exact h.kind?_eq (h.sound.wellFormed.live_input hu)
    | last => exact h.kind?_eq (h.sound.wellFormed.live_output hu)

include h in
lemma Equivalent.addUnitLike_eq (u : UnitId) : c'.addUnitLike u = c.addUnitLike u := by
  unfold addUnitLike
  rw [h.sameUnits.created, h.sameUnits.discarded]

include h in
lemma Equivalent.conditioned_eq (bits : List UnitId) (value : Nat) :
    c'.conditioned bits value = c.conditioned bits value := by
  have hlike := funext h.addUnitLike_eq
  have hcommands : (c'.commands.forM (addConditioned bits value) : Edit PUnit) =
      c.commands.forM (addConditioned bits value) := by
    rw [h.commands_eq]
    exact forM_map
  unfold conditioned
  rw [h.name, h.units_eq, hlike, h.phase, hcommands]

lemma conditioned_sound {bits : List UnitId} {value : Nat} (hrun : c.conditioned bits value = .ok d) : d.Sound :=
  ⟨(conditioned_coherent hrun).wellFormed, conditioned_lasts lasting_numbered hrun⟩

end Wireloom.Circuit
