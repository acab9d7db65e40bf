import Wireloom.Circuit.Reversal
import Wireloom.Proofs.Pending
import Wireloom.Proofs.Rename

/-!
# `Graph.copyIn`, `Circuit.append` — circuits one after the other and side by side

A circuit that is copied in waits beside the host (`pending_of_copy`). Registering its units gives `parallel`; tying them
to the host's gives `append`, which `Proofs.Chaining` is about.
-/

namespace Wireloom.Graph

open List Option SlotStore

variable {g g' guest : Graph} {v w : Vertex} {l m : Link} {keepNames : Bool}
  {becomes : Node → NodeKind → Option String → Prop} {copies : Copies} {k : NodeKind} {link : Link → Prop} {ι : Vertex → Vertex}

/-! ## Copies of vertices -/

/-- New vertices with given contents, each noted as the copy of a vertex. -/
def addCopies : List (Vertex × NodeKind × Option String) → Graph → Copies × Graph
  | [], g => ([], g)
  | (v, kind, opgroup) :: rest, g =>
    let (copies, g') := addCopies rest (g.withVertex kind opgroup)
    ((v, g.vertices.nextHandle) :: copies, g')

/-- **What adding copies does**: each of the vertices gets a new one with its content, and all else stays. -/
structure Added (xs : List (Vertex × NodeKind × Option String)) (g : Graph) (copies : Copies) (g' : Graph) : Prop where
  valid : g'.Valid
  edges : g'.edges = g.edges
  keys : copies.map Prod.fst = xs.map Prod.fst
  nodup : (copies.map Prod.snd).Nodup
  fresh : ∀ w ∈ copies.map Prod.snd, g.vertices.get? w = none
  old : ∀ w, w ∉ copies.map Prod.snd → g'.vertices.get? w = g.vertices.get? w
  new : ∀ v kind og, (v, kind, og) ∈ xs → ∃ w seq, (v, w) ∈ copies ∧ g'.vertices.get? w = some ⟨kind, og, seq⟩
  lasts : ∀ {P : Graph → Prop}, Lasting P → P g → P g'
  later : ∀ w ∈ copies.map Prod.snd, ∃ n, g'.vertices.get? w = some n ∧ g.nextSequence ≤ n.sequence
  order : (copies.map Prod.snd).Pairwise g'.MadeBefore
  made : g.Sequenced → g'.bySequence.map Prod.fst = g.bySequence.map Prod.fst ++ copies.map Prod.snd

lemma get?_withVertex_of_some {kind : NodeKind} {og : Option String} {n : Node} (hg : g.Valid)
    (hn : g.vertices.get? w = some n) : (g.withVertex kind og).vertices.get? w = some n :=
  (get?_insert_eq_some_iff hg.vertices).mpr (.inr hn)

lemma addCopies_added (hg : g.Valid) (xs : List (Vertex × NodeKind × Option String)) :
    Added xs g (addCopies xs g).1 (addCopies xs g).2 := by
  induction xs generalizing g with
  | nil =>
    exact ⟨hg, rfl, rfl, nodup_nil, by simp [addCopies], fun _ _ => rfl, by simp, fun _ => id, by simp [addCopies],
      Pairwise.nil, fun _ => by simp [addCopies]⟩
  | cons x rest ih =>
    obtain ⟨v, kind, og⟩ := x
    have h := ih (hg.withVertex kind og)
    have hself : (g.withVertex kind og).vertices.get? g.vertices.nextHandle = some ⟨kind, og, g.nextSequence⟩ :=
      get?_insert_same _ _
    -- later copies differ from the first one, which is there when they are made
    have hfirst : g.vertices.nextHandle ∉ (addCopies rest (g.withVertex kind og)).1.map Prod.snd := by
      intro hmem
      have := h.fresh _ hmem
      rw [hself] at this
      cases this
    have hrest : ∀ w ∈ (addCopies rest (g.withVertex kind og)).1.map Prod.snd, g.vertices.get? w = none := by
      intro w hw
      cases hn : g.vertices.get? w with
      | none => rfl
      | some n =>
        have := h.fresh w hw
        rw [get?_withVertex_of_some hg hn] at this
        cases this
    have hget := (h.old _ hfirst).trans hself
    refine ⟨h.valid, h.edges, ?_, nodup_cons.mpr ⟨hfirst, h.nodup⟩, ?_, fun w hw => ?_, ?_,
      fun hP hg => h.lasts hP (hP.withVertex hg), forall_mem_cons.mpr ⟨⟨_, hget, le_rfl⟩, fun w hw => ?_⟩,
      pairwise_cons.mpr ⟨fun w hw => ?_, h.order⟩, fun hseq => ?_⟩
    · exact congrArg (v :: ·) h.keys
    · exact forall_mem_cons.mpr ⟨get?_nextHandle hg.vertices, hrest⟩
    · obtain ⟨hne, hnot⟩ := not_or.mp (mem_cons.not.mp hw)
      exact (h.old w hnot).trans (get?_insert_other _ hne _)
    · intro v' kind' og' hmem
      rcases mem_cons.mp hmem with heq | hmem
      · cases heq
        exact ⟨_, _, mem_cons_self, hget⟩
      · obtain ⟨w, seq, hw, hget⟩ := h.new v' kind' og' hmem
        exact ⟨w, seq, mem_cons_of_mem _ hw, hget⟩
    · obtain ⟨n, hn, hle⟩ := h.later w hw
      exact ⟨n, hn, Nat.le_of_succ_le hle⟩
    · obtain ⟨n, hn, hle⟩ := h.later w hw
      exact ⟨_, n, hget, hn, hle⟩
    · show (addCopies rest (g.withVertex kind og)).2.bySequence.map Prod.fst = _
      rw [h.made hseq.withVertex, made_withVertex hg hseq, append_assoc]
      rfl

lemma copyVertices_run (keepNames : Bool) (ns : List (Vertex × Node)) (g : Graph) : copyVertices keepNames ns g =
      .ok (addCopies (ns.map fun p => (p.1, p.2.kind, if keepNames then p.2.opgroup else none)) g).1
        (addCopies (ns.map fun p => (p.1, p.2.kind, if keepNames then p.2.opgroup else none)) g).2 := by
  induction ns generalizing g with
  | nil => rfl
  | cons p rest ih =>
    obtain ⟨v, n⟩ := p
    rw [copyVertices, bind_ok (addVertex_run g n.kind _), bind_ok (ih _)]
    rfl

/-- The copy of a vertex, by a list of copies. -/
def copyOf (copies : Copies) (v : Vertex) : Vertex := (copies.lookup v).getD v

lemma map_copyOf (hn : (copies.map Prod.fst).Nodup) : (copies.map Prod.fst).map (copyOf copies) = copies.map Prod.snd := by
  rw [List.map_map]
  refine map_congr_left fun p hp => ?_
  rw [Function.comp_apply, copyOf, lookup_of_mem hn hp]
  rfl

/-- **Copies of all vertices of `guest` stand beside those of `g`.** What a copy holds is told by `becomes`. -/
structure Hosts (g guest g' : Graph) (ι : Vertex → Vertex) (becomes : Node → NodeKind → Option String → Prop) :
    Prop where
  valid : g'.Valid
  fresh : ∀ {v}, guest.Live v → g.vertices.get? (ι v) = none
  injective : ∀ {v w}, guest.Live v → guest.Live w → ι v = ι w → v = w
  old : ∀ {w n}, g.vertices.get? w = some n → g'.vertices.get? w = some n
  new : ∀ {v n}, guest.vertices.get? v = some n → ∃ k og seq, g'.vertices.get? (ι v) = some ⟨k, og, seq⟩ ∧ becomes n k og
  cases : ∀ {w n}, g'.vertices.get? w = some n → g.vertices.get? w = some n ∨ ∃ v, guest.Live v ∧ ι v = w

lemma Added.hosts {xs : List (Vertex × NodeKind × Option String)} (h : Added xs g copies g')
    (guest : Graph) (becomes : Node → NodeKind → Option String → Prop) (hn : (xs.map Prod.fst).Nodup)
    (hlive : ∀ v, v ∈ xs.map Prod.fst ↔ guest.Live v)
    (hxs : ∀ v kind og n, (v, kind, og) ∈ xs → guest.vertices.get? v = some n → becomes n kind og) :
    Hosts g guest g' (copyOf copies) becomes ∧ ∀ v, guest.Live v → copies.get v = .ok (copyOf copies v) := by
  have hkeys := h.keys ▸ hn
  have hcopy : ∀ {v}, guest.Live v → ∃ kind og seq, (v, kind, og) ∈ xs ∧ (v, copyOf copies v) ∈ copies ∧
      copies.lookup v = some (copyOf copies v) ∧ g'.vertices.get? (copyOf copies v) = some ⟨kind, og, seq⟩ := by
    intro v hv
    obtain ⟨⟨v', kind, og⟩, hmem, rfl⟩ := mem_map.mp ((hlive v).mpr hv)
    obtain ⟨w, seq, hw, hget⟩ := h.new _ _ _ hmem
    have hlookup := lookup_of_mem hkeys hw
    have hw' : copyOf copies v' = w := by unfold copyOf; rw [hlookup]; rfl
    exact ⟨kind, og, seq, hmem, hw' ▸ hw, hw' ▸ hlookup, hw' ▸ hget⟩
  have hmem_snd : ∀ {v}, guest.Live v → copyOf copies v ∈ copies.map Prod.snd := by
    intro v hv
    obtain ⟨_, _, _, _, hmem, _⟩ := hcopy hv
    exact mem_map_of_mem hmem
  refine ⟨⟨h.valid, fun hv => h.fresh _ (hmem_snd hv), fun {v w} hv hw heq => ?_, fun {w n} hget => ?_, fun {v n} hget => ?_,
    fun {w n} hget => ?_⟩, fun v hv => ?_⟩
  · obtain ⟨_, _, _, _, hmem, _⟩ := hcopy hv
    obtain ⟨_, _, _, _, hmem', _⟩ := hcopy hw
    exact congrArg Prod.fst (inj_on_of_nodup_map h.nodup hmem hmem' heq)
  · rw [h.old w fun hmem => by rw [h.fresh w hmem] at hget; cases hget]
    exact hget
  · have hv : guest.Live v := live_of_get? hget
    obtain ⟨kind, og, seq, hmem, _, _, hnew⟩ := hcopy hv
    exact ⟨kind, og, seq, hnew, hxs v kind og n hmem hget⟩
  · by_cases hw : w ∈ copies.map Prod.snd
    · obtain ⟨⟨v, _⟩, hmem, rfl⟩ := mem_map.mp hw
      refine .inr ⟨v, (hlive v).mp (h.keys ▸ mem_map_of_mem hmem), ?_⟩
      unfold copyOf
      rw [lookup_of_mem hkeys hmem]
      rfl
    · rw [h.old w hw] at hget
      exact .inl hget
  · obtain ⟨_, _, _, _, _, hlookup, _⟩ := hcopy hv
    unfold Copies.get
    rw [hlookup]

/-! ## Copies of links -/

lemma Hosts.not_hasLink (h : Hosts g guest g' ι becomes) (hg : g.Valid) (hv : guest.Live v) (hm : g.HasLink m) :
    m.source.vertex ≠ ι v ∧ m.target.vertex ≠ ι v := by
  constructor
  · intro heq
    obtain ⟨n, hn⟩ := live_iff.mp (hg.source_live hm)
    rw [heq, h.fresh hv] at hn
    cases hn
  · intro heq
    obtain ⟨n, hn⟩ := live_iff.mp (hg.target_live hm)
    rw [heq, h.fresh hv] at hn
    cases hn

lemma Hosts.live_new (h : Hosts g guest g' ι becomes) (hv : guest.Live v) : g'.Live (ι v) := by
  obtain ⟨n, hn⟩ := live_iff.mp hv
  obtain ⟨k, _, _, hget, _⟩ := h.new hn
  exact live_of_get? hget

lemma Hosts.links_run {f : Link → Edit PUnit} (h : Hosts g guest g' ι becomes) (move : Link → Link) (hg : g.Valid)
    (hguest : guest.Valid) (hgs : guest.Simple) (hedges : g'.edges = g.edges) (hs : g.Simple)
    (hrun : ∀ l g1, guest.HasLink l → f l g1 = discard (addLink (move l)) g1)
    (hends : ∀ l, guest.HasLink l → ∃ v w, guest.Live v ∧ guest.Live w ∧ (move l).source.vertex = ι v ∧
      (move l).target.vertex = ι w)
    (hmove : ∀ l m, guest.HasLink l → guest.HasLink m → move l = move m → l = m) :
    ∃ g'', guest.edgeList.forM (fun p => f p.2) g' = .ok ⟨⟩ g'' ∧ Grows g' g'' fun m => ∃ l, guest.HasLink l ∧ m = move l := by
  have hs' : g'.Simple := by
    intro e e' m he he'
    rw [hedges] at he he'
    exact hs he he'
  have hmem : ∀ p ∈ guest.edgeList, guest.edges.get? p.1 = some p.2 := fun p hp => (mem_edgeList hguest).mp hp
  have hdistinct : (guest.edgeList.map fun p => move p.2).Nodup := by
    have hnodup : guest.edgeList.Nodup :=
      Nodup.of_map Prod.fst (((perm_sortedBy _ _).map _).nodup_iff.mpr hguest.edges.nodup)
    refine Nodup.map_on (fun p hp q hq heq => ?_) hnodup
    have hpq := hmove p.2 q.2 ⟨_, hmem p hp⟩ ⟨_, hmem q hq⟩ heq
    exact Prod.ext (hgs (hmem p hp) (hpq ▸ hmem q hq)) hpq
  obtain ⟨g'', hloop, hgrow⟩ := addLinks_grows h.valid hs' hdistinct (fun p hp hlink => by
      obtain ⟨v, w, hv, _, hsource, _⟩ := hends p.2 ⟨_, hmem p hp⟩
      obtain ⟨e, he⟩ := hlink
      rw [hedges] at he
      exact (h.not_hasLink hg hv ⟨e, he⟩).1 hsource)
    (fun p hp => by
      obtain ⟨v, w, hv, _, hsource, _⟩ := hends p.2 ⟨_, hmem p hp⟩
      rw [hsource]
      exact h.live_new hv)
    (fun p hp => by
      obtain ⟨v, w, _, hw, _, htarget⟩ := hends p.2 ⟨_, hmem p hp⟩
      rw [htarget]
      exact h.live_new hw)
  refine ⟨g'', ?_, hgrow.congr fun m => ⟨?_, ?_⟩⟩
  · rw [← hloop]
    exact forM_congr fun p hp g1 => hrun p.2 g1 ⟨_, hmem p hp⟩
  · rintro ⟨p, hp, rfl⟩
    exact ⟨p.2, ⟨_, hmem p hp⟩, rfl⟩
  · rintro ⟨l, ⟨e, he⟩, rfl⟩
    exact ⟨(e, l), (mem_edgeList hguest).mpr he, rfl⟩

/-- **A copy of `guest` stands beside `g`.** -/
structure IsCopy (g guest g' : Graph) (ι : Vertex → Vertex) (keepNames : Bool) : Prop extends
    Hosts g guest g' ι fun n k og => k = n.kind ∧ og = if keepNames then n.opgroup else none where
  simple : g'.Simple
  links : ∀ m, g'.HasLink m ↔ g.HasLink m ∨ ∃ l, guest.HasLink l ∧ m = l.map ι
  kept : ∀ {e m}, g.edges.get? e = some m → g'.edges.get? e = some m
  lasts : ∀ {P : Graph → Prop}, Lasting P → P g → P g'
  order : ∀ {v w}, guest.MadeBefore v w → g'.MadeBefore (ι v) (ι w)
  made : g.Sequenced → g'.bySequence.map Prod.fst = g.bySequence.map Prod.fst ++ (guest.bySequence.map Prod.fst).map ι

lemma Hosts.of_vertices {g'' : Graph}
    (h : Hosts g guest g' ι becomes) (hvert : g''.vertices = g'.vertices) (hvalid : g''.Valid) :
    Hosts g guest g'' ι becomes where
  valid := hvalid
  fresh := h.fresh
  injective := h.injective
  old hn := by rw [hvert]; exact h.old hn
  new hn := by rw [hvert]; exact h.new hn
  cases hn := h.cases (by rw [← hvert]; exact hn)

lemma Link.map_injective (hguest : guest.Valid)
    (hι : ∀ {v w}, guest.Live v → guest.Live w → ι v = ι w → v = w) (hl : guest.HasLink l) (hm : guest.HasLink m)
    (heq : l.map ι = m.map ι) : l = m := by
  obtain ⟨hs, ht, hk⟩ := Link.mk.inj heq
  obtain ⟨hsv, hsi⟩ := Pin.mk.inj hs
  obtain ⟨htv, hti⟩ := Pin.mk.inj ht
  rw [Link.mk.injEq]
  exact ⟨Pin.ext (hι (hguest.source_live hl) (hguest.source_live hm) hsv) hsi,
    Pin.ext (hι (hguest.target_live hl) (hguest.target_live hm) htv) hti, hk⟩

lemma copyIn_run (hg : g.Valid) (hs : g.Simple) (hguest : guest.Valid) (hgs : guest.Simple) (keepNames : Bool) :
    ∃ copies g' ι, copyIn guest keepNames g = .ok copies g' ∧ IsCopy g guest g' ι keepNames ∧
      ∀ v, guest.Live v → copies.get v = .ok (ι v) := by
  -- copies are made in the order in which the guest was made
  let xs := guest.bySequence.map fun p => (p.1, p.2.kind, if keepNames then p.2.opgroup else none)
  have hadded := addCopies_added hg xs
  have hkeys : xs.map Prod.fst = guest.bySequence.map Prod.fst := by rw [List.map_map]; rfl
  obtain ⟨hhosts, hcopies⟩ := hadded.hosts guest (fun n k og => k = n.kind ∧ og = if keepNames then n.opgroup else none)
    (hkeys ▸ nodup_bySequence hguest) (fun v => by rw [hkeys]; exact mem_map_bySequence hguest)
    (fun v kind og n hmem hn => by
      obtain ⟨⟨_, _⟩, hmem', heq⟩ := mem_map.mp hmem
      have hn' := (mem_bySequence hguest).mp hmem'
      cases heq
      rw [hn] at hn'; cases hn'
      exact ⟨rfl, rfl⟩)
  obtain ⟨g', hlinks, hgrow⟩ := hhosts.links_run (f := copyLink (addCopies xs g).1)
    (fun l => l.map (copyOf (addCopies xs g).1)) hg hguest hgs hadded.edges hs
    (fun l g1 hl => by
      unfold copyLink
      rw [bind_ok (ask_of_ok (hcopies _ (hguest.source_live hl))),
        bind_ok (ask_of_ok (hcopies _ (hguest.target_live hl)))]
      rfl)
    (fun l hl => ⟨_, _, hguest.source_live hl, hguest.target_live hl, rfl, rfl⟩)
    (fun l m hl hm heq => Link.map_injective hguest hhosts.injective hl hm heq)
  have hmap : (guest.bySequence.map Prod.fst).map (copyOf (addCopies xs g).1) = (addCopies xs g).1.map Prod.snd := by
    rw [← hkeys, ← hadded.keys]
    exact map_copyOf (hadded.keys ▸ hkeys ▸ nodup_bySequence hguest)
  refine ⟨(addCopies xs g).1, g', copyOf (addCopies xs g).1, ?_, ?_, hcopies⟩
  · unfold copyIn
    rw [bind_ok (copyVertices_run keepNames guest.bySequence g), bind_ok hlinks]
    rfl
  · exact
      { toHosts := hhosts.of_vertices hgrow.vertices hgrow.valid
        simple := hgrow.simple
        links := fun m => by
          rw [hgrow.links]
          unfold HasLink
          rw [hadded.edges]
        kept := fun he => hgrow.kept (by rw [hadded.edges]; exact he)
        lasts := fun hP h => hP.of_vertices (hadded.lasts hP h) hgrow.vertices hgrow.sequence
        order := fun hvw => by
          have horder := hadded.order
          rw [← hmap] at horder
          unfold MadeBefore
          rw [hgrow.vertices]
          exact madeBefore_of_pairwise hguest (pairwise_map.mp horder) hvw
        made := fun hseq => by rw [made_of_vertices hgrow.vertices, hadded.made hseq, hmap] }

lemma copyIn_keys (hg : g.Valid) (hrun : copyIn guest keepNames g = .ok copies g') :
    copies.map Prod.fst = guest.bySequence.map Prod.fst := by
  obtain ⟨_, _, hvertices, hrest⟩ := bind_eq_ok.mp hrun
  obtain ⟨_, _, _, hpure⟩ := bind_eq_ok.mp hrest
  cases hpure
  cases (copyVertices_run keepNames guest.bySequence g).symm.trans hvertices
  rw [(addCopies_added hg _).keys, List.map_map]
  rfl

/-! ## The nets of copies -/

/-- The part of a net that the copies make up. -/
def copyNet (g g' : Graph) (link : Link → Prop) : Net :=
  ⟨fun w => if g.vertices.contains w then none else g'.net.signature? w, link⟩

lemma signature_copyNet_of_live (hw : g.Live w) : (copyNet g g' link).signature? w = none :=
  if_pos hw

lemma signature_copyNet_of_not_live (hw : ¬ g.Live w) : (copyNet g g' link).signature? w = g'.net.signature? w :=
  if_neg hw

lemma net_signature_of_not_live (hw : ¬ g.Live w) : g.net.signature? w = none := by
  cases hs : g.net.signature? w with
  | none => rfl
  | some s =>
    obtain ⟨k, hk, _⟩ := map_eq_some_iff.mp hs
    exact absurd (live_of_kind? hk) hw

namespace Hosts

variable {ι : Vertex → Vertex} {becomes : Node → NodeKind → Option String → Prop} {link : Link → Prop}

section

variable (h : Hosts g guest g' ι becomes)
include h

lemma signature_old (hw : g.Live w) : g'.net.signature? w = g.net.signature? w := by
  obtain ⟨n, hn⟩ := live_iff.mp hw
  show (g'.kind? w).map _ = (g.kind? w).map _
  unfold kind?
  rw [hn, h.old hn]

lemma isUnion (hlinks : ∀ m, g'.HasLink m ↔ g.HasLink m ∨ link m) : g.net.IsUnion (copyNet g g' link) g'.net where
  signature w := by
    by_cases hw : g.Live w
    · rw [signature_copyNet_of_live hw, or_none]
      exact h.signature_old hw
    · rw [signature_copyNet_of_not_live hw, net_signature_of_not_live hw, none_or]
  link := hlinks
  disjoint w := by
    by_cases hw : g.Live w
    · exact .inr (signature_copyNet_of_live hw)
    · exact .inl (net_signature_of_not_live hw)

lemma not_live (hv : guest.Live v) : ¬ g.Live (ι v) := by
  intro hlive
  obtain ⟨n, hn⟩ := live_iff.mp hlive
  rw [h.fresh hv] at hn
  cases hn

lemma moves (hsig : ∀ n k og, becomes n k og → k.signature = n.kind.signature) : guest.net.Moves ι (copyNet g g' link) := by
  have hsignature : ∀ {v s}, guest.net.signature? v = some s → (copyNet g g' link).signature? (ι v) = some s := by
    intro v s hs
    obtain ⟨k, hk, hks⟩ := map_eq_some_iff.mp hs
    obtain ⟨n, hn, rfl⟩ := map_eq_some_iff.mp hk
    obtain ⟨k', og, _, hget, hbecomes⟩ := h.new hn
    refine (signature_copyNet_of_not_live (h.not_live (live_of_kind? hk))).trans ?_
    show ((g'.vertices.get? (ι v)).map Node.kind).map _ = _
    rw [hget, map_some, map_some, hsig n k' og hbecomes, hks]
  refine ⟨hsignature, fun {w s} hs => ?_, fun {v w s t} hv hw heq => ?_⟩
  · have hnot : ¬ g.Live w := by
      intro hlive
      rw [signature_copyNet_of_live hlive] at hs
      cases hs
    obtain ⟨k, hk, _⟩ := map_eq_some_iff.mp ((signature_copyNet_of_not_live hnot).symm.trans hs)
    obtain ⟨n, hn, _⟩ := map_eq_some_iff.mp hk
    rcases h.cases hn with hn | ⟨v, hv, rfl⟩
    · exact absurd (live_of_get? hn) hnot
    · obtain ⟨k0, hk0⟩ := live_iff_kind?.mp hv
      have hv' := signature_of_kind? hk0
      have := hsignature hv'
      rw [hs] at this
      exact ⟨v, by rw [hv', ← Option.some.inj this], rfl⟩
  · obtain ⟨k, hk, _⟩ := map_eq_some_iff.mp hv
    obtain ⟨k', hk', _⟩ := map_eq_some_iff.mp hw
    exact h.injective (live_of_kind? hk) (live_of_kind? hk') heq

lemma kind?_old {k : NodeKind} (hk : g.kind? w = some k) : g'.kind? w = some k := by
  obtain ⟨n, hn, rfl⟩ := map_eq_some_iff.mp hk
  unfold kind?
  rw [h.old hn]
  rfl

lemma exists_inverse : ∃ κ : Vertex → Vertex, ∀ v, guest.Live v → κ (ι v) = v := by
  classical
  refine ⟨fun w => if hw : ∃ v, guest.Live v ∧ ι v = w then hw.choose else w, fun v hv => ?_⟩
  have hex : ∃ v', guest.Live v' ∧ ι v' = ι v := ⟨v, hv, rfl⟩
  show (if hw : ∃ v', guest.Live v' ∧ ι v' = ι v then hw.choose else ι v) = v
  rw [dif_pos hex]
  exact h.injective hex.choose_spec.1 hv hex.choose_spec.2

end

end Hosts

variable (h : IsCopy g guest g' ι keepNames)

include h in
lemma IsCopy.kind?_new (hk : guest.kind? v = some k) : g'.kind? (ι v) = some k := by
  obtain ⟨n, hn, rfl⟩ := map_eq_some_iff.mp hk
  obtain ⟨k, _, _, hget, hbecomes⟩ := h.new hn
  unfold kind?
  rw [hget, ← hbecomes.1]
  rfl

include h in
lemma IsCopy.kind?_cases (hk : g'.kind? w = some k) : g.kind? w = some k ∨ ∃ v, guest.kind? v = some k ∧ ι v = w := by
  obtain ⟨n, hn, rfl⟩ := map_eq_some_iff.mp hk
  rcases h.cases hn with hold | ⟨v, hv, rfl⟩
  · exact .inl (by unfold kind?; rw [hold]; rfl)
  · obtain ⟨k, hk'⟩ := live_iff_kind?.mp hv
    refine .inr ⟨v, ?_, rfl⟩
    rw [hk', ← h.kind?_new hk', hk]

include h in
lemma IsCopy.isUnion : g.net.IsUnion (copyNet g g' fun m => ∃ l, guest.HasLink l ∧ m = l.map ι) g'.net :=
  h.toHosts.isUnion h.links

include h in
lemma IsCopy.isImage : guest.net.IsImage ι (copyNet g g' fun m => ∃ l, guest.HasLink l ∧ m = l.map ι) where
  toMoves := h.toHosts.moves fun _ _ _ hb => by rw [hb.1]
  link _ := Iff.rfl

end Graph

/-! # `Circuit.append` -/

def Ends.map (ι : Vertex → Vertex) (ends : Ends) : Ends := ⟨ι ends.input, ι ends.output⟩

namespace Circuit

open Wireloom.Graph SortedMap List

variable {c c' guest : Circuit} {unit : Pin → UnitId} {u : UnitId} {ends : Ends} {copies : Copies}
  {l : List (UnitId × Ends)} {ι : Vertex → Vertex} {move : Ends → Ends} {policy : OpgroupPolicy} {unitG : Pin → UnitId}

/-! ## A circuit beside another -/

/-- The units of a circuit with their ends moved. -/
def movedEnds (c : Circuit) (move : Ends → Ends) : List (UnitId × Ends) :=
  c.boundary.entries.map fun p => (p.1, move p.2)

lemma mem_movedEnds : (u, ends) ∈ c.movedEnds move ↔ ∃ ends0, c.boundary.get? u = some ends0 ∧ ends = move ends0 := by
  unfold movedEnds
  rw [mem_map]
  constructor
  · rintro ⟨⟨_, ends0⟩, hmem, heq⟩
    cases heq
    exact ⟨ends0, get?_iff_mem.mpr hmem, rfl⟩
  · rintro ⟨ends0, hu, rfl⟩
    exact ⟨(u, ends0), get?_iff_mem.mp hu, rfl⟩

lemma nodup_movedEnds (c : Circuit) (move : Ends → Ends) : ((c.movedEnds move).map Prod.fst).Nodup := by
  unfold movedEnds
  rw [map_map]
  exact nodup_keys c.boundary

lemma forall_movedEnds {P : UnitId × Ends → Prop}
    (h : ∀ {u ends}, c.boundary.get? u = some ends → P (u, move ends)) : ∀ x ∈ c.movedEnds move, P x := by
  rintro ⟨u, _⟩ hmem
  obtain ⟨ends, hu, rfl⟩ := mem_movedEnds.mp hmem
  exact h hu

lemma exists_movedEnds {side side' : Ends → Vertex} (hside : ∀ ends, side' (move ends) = ι (side ends)) (w : Vertex) :
    (∃ x ∈ c.movedEnds move, side' x.2 = w) ↔ ∃ v, (∃ u ends, c.boundary.get? u = some ends ∧ side ends = v) ∧ ι v = w := by
  constructor
  · rintro ⟨⟨u, ends⟩, hmem, rfl⟩
    obtain ⟨ends0, hu, rfl⟩ := mem_movedEnds.mp hmem
    exact ⟨_, ⟨u, ends0, hu, rfl⟩, (hside ends0).symm⟩
  · rintro ⟨v, ⟨u, ends0, hu, rfl⟩, rfl⟩
    exact ⟨(u, _), mem_movedEnds.mpr ⟨ends0, hu, rfl⟩, hside ends0⟩

lemma pending_of_copy {g : Graph} {keepNames : Bool} (h : c.Wired unit)
    (hguest : guest.Wired unitG) (hcopy : IsCopy c.graph guest.graph g ι keepNames) :
    ∃ (unit' : Pin → UnitId) (rank : Vertex → ℕ ×ₗ ℕ),
      { c with graph := g }.Pending unit' rank (guest.movedEnds (Ends.map ι)) := by
  classical
  obtain ⟨κ, hκ⟩ := hcopy.toHosts.exists_inverse
  obtain ⟨r, _, _, hr⟩ := h.exists_rank
  obtain ⟨rG, _, _, hrG⟩ := hguest.exists_rank
  let unit' : Pin → UnitId := fun p => if c.graph.Live p.vertex then unit p else unitG (p.map κ)
  -- all copies rank behind the host
  let rank : Vertex → ℕ ×ₗ ℕ := fun v => if c.graph.Live v then toLex (0, r v) else toLex (1, rG (κ v))
  have hunit : ∀ p, guest.graph.Live p.vertex → unit' (p.map ι) = unitG p := by
    intro p hp
    refine (if_neg (hcopy.toHosts.not_live hp)).trans ?_
    show unitG ⟨κ (ι p.vertex), p.index⟩ = _
    rw [hκ _ hp]
  have hrank : ∀ v, guest.graph.Live v → rank (ι v) = toLex (1, rG v) := by
    intro v hv
    refine (if_neg (hcopy.toHosts.not_live hv)).trans ?_
    rw [hκ _ hv]
  have hranked : c.graph.net.Ranked rank := by
    intro v w hvw
    obtain ⟨hv, hw⟩ := live_of_before h.threaded hvw
    rw [show rank v = toLex (0, r v) from if_pos hv, show rank w = toLex (0, r w) from if_pos hw]
    exact Net.lt_within_class (hr v w hvw)
  have hrankedG : guest.graph.net.Ranked fun v => (toLex (1, rG v) : ℕ ×ₗ ℕ) := fun v w hvw =>
    Net.lt_within_class (hrG v w hvw)
  have harrives : c.Arrives g (copyNet c.graph g fun m => ∃ l, guest.graph.HasLink l ∧ m = l.map ι) unit' rank
      (guest.movedEnds (Ends.map ι)) :=
    { valid := hcopy.valid, simple := hcopy.simple, union := hcopy.isUnion
      threaded := hcopy.isImage.threaded hguest.threaded fun p hp => hunit p (signature?_iff.mp hp)
      complete := hcopy.isImage.complete hguest.threaded.toFitted hguest.complete
        (exists_movedEnds fun _ => rfl) (exists_movedEnds fun _ => rfl)
      ranked := hcopy.isImage.ranked hguest.threaded.toFitted hrankedG fun v hv =>
        hrank v (signature?_iff.mp hv)
      old := hcopy.toHosts.kind?_old
      starts := forall_movedEnds fun hu => by
        obtain ⟨k, hk, hstart⟩ := hguest.starts hu
        exact ⟨k, hcopy.kind?_new hk, hstart⟩
      stops := forall_movedEnds fun hu => by
        obtain ⟨k, hk, hend⟩ := hguest.stops hu
        exact ⟨k, hcopy.kind?_new hk, hend⟩
      only_ops := fun {w k} hk hb => by
        rcases hcopy.kind?_cases hk with hold | ⟨v, hv, rfl⟩
        · exact .inl hold
        · rcases hguest.only_ops hv hb with ⟨u, ends0, hu, rfl⟩ | ⟨u, ends0, hu, rfl⟩
          · exact .inr ⟨(u, _), mem_movedEnds.mpr ⟨ends0, hu, rfl⟩, .inl rfl⟩
          · exact .inr ⟨(u, _), mem_movedEnds.mpr ⟨ends0, hu, rfl⟩, .inr rfl⟩
      unit_input := forall_movedEnds fun hu => (hunit _ (hguest.live_input hu)).trans (hguest.unit_input hu)
      unit_output := forall_movedEnds fun hu => (hunit _ (hguest.live_output hu)).trans (hguest.unit_output hu)
      nodup := guest.nodup_movedEnds _
      after := forall_movedEnds fun {u ends} hu v hv => by
        show rank v < rank (ι ends.input) ∧ rank v < rank (ι ends.output)
        rw [hrank _ (hguest.live_input hu), hrank _ (hguest.live_output hu), show rank v = toLex (0, r v) from if_pos hv]
        exact ⟨Net.lt_of_class Nat.zero_lt_one, Net.lt_of_class Nat.zero_lt_one⟩ }
  exact ⟨unit', rank, Pending.of_arrives harrives h (fun p hp => if_pos hp) hranked⟩

/-! ## Copying a circuit in -/

lemma getEnds_of_live (hcopies : ∀ v, guest.graph.Live v → copies.get v = .ok (ι v)) (hguest : guest.Framed)
    (hu : guest.boundary.get? u = some ends) :
    copies.getEnds ends = .ok (ends.map ι) := by
  unfold Copies.getEnds
  rw [hcopies _ (hguest.live_input hu), hcopies _ (hguest.live_output hu)]
  rfl

/-- The opgroups of a host after a guest came in. -/
def mergedOpgroups (policy : OpgroupPolicy) (host guest : SortedMap String Signature) : SortedMap String Signature :=
  if policy.keepsNames then host.unionLeft guest else host

lemma copyIn_run (h : c.Wired unit) {unitG : Pin → UnitId} (hguest : guest.Wired unitG)
    (hpolicy : policy.check c.opgroups guest.opgroups = .ok ()) :
    ∃ copies g ι, copyIn guest policy c =
        .ok copies { c with graph := g, opgroups := mergedOpgroups policy c.opgroups guest.opgroups } ∧
      IsCopy c.graph guest.graph g ι policy.keepsNames ∧
      ∀ v, guest.graph.Live v → copies.get v = .ok (ι v) := by
  obtain ⟨copies, g, ι, hrun, hcopy, hcopies⟩ :=
    Graph.copyIn_run h.valid h.simple hguest.valid hguest.simple policy.keepsNames
  refine ⟨copies, g, ι, ?_, hcopy, hcopies⟩
  unfold copyIn
  rw [bind_ok (ask_of_ok hpolicy), bind_ok (onGraph_of_ok hrun)]
  unfold mergedOpgroups
  cases policy.keepsNames with
  | true => rfl
  | false => rfl

lemma copyIn_eq_ok (h : c.Wired unit) {unitG : Pin → UnitId} (hguest : guest.Wired unitG)
    (hrun : copyIn guest policy c = .ok copies c') :
    policy.check c.opgroups guest.opgroups = .ok () ∧
    ∃ g ι, c' = { c with graph := g, opgroups := mergedOpgroups policy c.opgroups guest.opgroups } ∧
      IsCopy c.graph guest.graph g ι policy.keepsNames ∧
      ∀ v, guest.graph.Live v → copies.get v = .ok (ι v) := by
  obtain ⟨_, hpolicy, _⟩ := bind_ask_eq_ok.mp hrun
  obtain ⟨_, g, ι, hrun', hcopy, hcopies⟩ := copyIn_run h hguest hpolicy
  rw [hrun'] at hrun
  obtain ⟨rfl, rfl⟩ := EStateM.Result.ok.inj hrun
  exact ⟨hpolicy, g, ι, rfl, hcopy, hcopies⟩

lemma Pending.congr {rank : Vertex → ℕ ×ₗ ℕ} {pending : List (UnitId × Ends)} (h : c.Pending unit rank pending)
    (hgraph : c'.graph = c.graph) (hboundary : c'.boundary = c.boundary) : c'.Pending unit rank pending := by
  obtain ⟨_, _, _, _, _⟩ := c'
  cases hgraph
  cases hboundary
  exact ⟨h.starts, h.stops, h.only_ops, h.valid, h.simple, h.threaded, h.complete, h.ranked, h.unit_input,
    h.unit_output, h.nodup, h.after⟩

/-! ## One after the other -/

/-- **A loop over the copied ends of units.** `pick` takes the ends apart in one order or the other. -/
theorem forEnds_run (pick moved : Ends → Ends) (f : UnitId → Ends → Edit PUnit) (I : List (UnitId × Ends) → Circuit → Prop)
    (step : ∀ u ends rest c, I ((u, ends) :: rest) c → ∃ c', f u ends c = .ok ⟨⟩ c' ∧ I rest c')
    (hl : ∀ x ∈ l, copies.getEnds (pick x.2) = .ok (moved x.2)) (h : I (l.map fun p => (p.1, moved p.2)) c) :
    ∃ c', (l.forM fun x => (ask fun _ => copies.getEnds (pick x.2)) >>= f x.1 : Edit PUnit) c = .ok ⟨⟩ c' ∧ I [] c' := by
  obtain ⟨c', hrun, hdone, _⟩ := forM_of_step
    (f := fun x : UnitId × Ends => ((ask fun _ => copies.getEnds (pick x.2)) >>= f x.1 : Edit PUnit))
    (fun rest c => I (rest.map fun p => (p.1, moved p.2)) c ∧ ∀ x ∈ rest, copies.getEnds (pick x.2) = .ok (moved x.2))
    (fun x rest c ⟨hI, hrest⟩ => by
      obtain ⟨c', hrun, hI'⟩ := step _ _ _ _ hI
      refine ⟨c', ?_, hI', fun y hy => hrest y (mem_cons_of_mem _ hy)⟩
      rw [bind_ok (ask_of_ok (hrest x mem_cons_self))]
      exact hrun)
    ⟨h, hl⟩
  exact ⟨c', hrun, hdone⟩

/-- **Units were added with the given ends**, and nothing else changed. -/
structure Registered (l : List (UnitId × Ends)) (c c' : Circuit) : Prop where
  others : c' = { c with boundary := c'.boundary }
  new : ∀ x ∈ l, c'.boundary.get? x.1 = some x.2
  old : ∀ u, u ∉ l.map Prod.fst → c'.boundary.get? u = c.boundary.get? u

lemma Registered.concat (h : Registered l c c') (hu : u ∉ l.map Prod.fst) :
    Registered (l ++ [(u, ends)]) c (c'.withEnds u ends) where
  others := by
    rw [h.others]
    rfl
  new x hx := by
    show (c'.boundary.insert u ends).get? x.1 = some x.2
    rw [get?_insert]
    rcases mem_append.mp hx with hx | hx
    · rw [if_neg fun heq => hu (mem_map.mpr ⟨x, hx, heq⟩)]
      exact h.new x hx
    · rw [mem_singleton.mp hx, if_pos rfl]
  old u' hu' := by
    rw [map_append, mem_append, not_or] at hu'
    show (c'.boundary.insert u ends).get? u' = _
    rw [get?_insert, if_neg fun heq => hu'.2 (mem_singleton.mpr heq)]
    exact h.old u' hu'.1

lemma Registered.get?_boundary (h : Registered (guest.movedEnds move) c c') (u : UnitId) :
    c'.boundary.get? u = ((guest.boundary.get? u).map move).or (c.boundary.get? u) := by
  cases hu : guest.boundary.get? u with
  | some ends => exact h.new (u, move ends) (mem_movedEnds.mpr ⟨ends, hu, rfl⟩)
  | none =>
    refine h.old u fun hmem => ?_
    obtain ⟨⟨_, ends⟩, hends, rfl⟩ := mem_map.mp hmem
    obtain ⟨_, hends0, _⟩ := mem_movedEnds.mp hends
    rw [hu] at hends0
    cases hends0

lemma registerEnds_run {α : Type} [Preorder α] {rank : Vertex → α} (pick moved : Ends → Ends)
    (hl : ∀ x ∈ l, copies.getEnds (pick x.2) = .ok (moved x.2))
    (h : c.Pending unit rank (l.map fun p => (p.1, moved p.2))) (hnew : ∀ x ∈ l, c.boundary.get? x.1 = none) :
    ∃ c', (l.forM fun x => (ask fun _ => copies.getEnds (pick x.2)) >>= fun ends => modify (·.withEnds x.1 ends) :
      Edit PUnit) c = .ok ⟨⟩ c' ∧ c'.Wired unit ∧ Registered (l.map fun p => (p.1, moved p.2)) c c' := by
  have hnodup := h.nodup
  -- the units up to here are registered, and the others wait and are new
  obtain ⟨c', hrun, hdone, _, done, hall, hreg⟩ := forEnds_run pick moved (fun u ends => modify (·.withEnds u ends))
    (fun pending c1 => c1.Pending unit rank pending ∧ (∀ x ∈ pending, c1.boundary.get? x.1 = none) ∧
      ∃ done, done ++ pending = (l.map fun p => (p.1, moved p.2)) ∧ Registered done c c1)
    (fun u ends rest c1 ⟨hpend, hnew, done, hall, hreg⟩ => by
      refine ⟨_, rfl, hpend.register (hnew _ mem_cons_self), fun x hx => ?_, done ++ [(u, ends)],
        by rw [← hall]; simp, hreg.concat fun hu => ?_⟩
      · have hne : x.1 ≠ u := fun heq =>
          (nodup_cons.mp hpend.nodup).1 (mem_map.mpr ⟨x, hx, heq⟩)
        show (c1.boundary.insert u ends).get? x.1 = none
        rw [get?_insert, if_neg hne]
        exact hnew x (mem_cons_of_mem _ hx)
      · rw [← hall, map_append] at hnodup
        exact (nodup_append.mp hnodup).2.2 u hu u mem_cons_self rfl)
    hl ⟨h, forall_mem_map.mpr hnew, [], rfl, rfl, by simp, fun _ _ => rfl⟩
  rw [append_nil] at hall
  exact ⟨c', hrun, hdone.wired, hall ▸ hreg⟩

lemma getEnds_copies (hcopies : ∀ v, guest.graph.Live v → copies.get v = .ok (ι v)) (hguest : guest.Framed) :
    ∀ x ∈ guest.boundary.entries, copies.getEnds x.2 = .ok (x.2.map ι) := fun _ hx =>
  getEnds_of_live hcopies hguest (get?_iff_mem.mpr hx)

/-! ## Side by side -/

/-- Two circuits cannot stand side by side: they share a unit, or a register has different kinds in them. -/
def Clashes (host guest : Circuit) : Prop :=
  ∃ u ∈ guest.units, u ∈ host.units ∨ ∃ w ∈ host.units, w.register = u.register ∧ w.kind ≠ u.kind

lemma checkMerge_iff : c.checkMerge guest = .ok () ↔ ¬ c.Clashes guest := by
  unfold checkMerge Clashes
  rw [except_forM_eq_ok]
  push Not
  refine forall₂_congr fun u _ => ?_
  by_cases hu : u ∈ c.units
  · rw [if_pos (hasUnit_iff.mpr hu)]
    exact ⟨fun h => (nomatch h), fun h => absurd hu h.1⟩
  · rw [if_neg (hasUnit_iff.not.mpr hu)]
    by_cases hany : (c.units.any fun v => v.register = u.register && v.kind ≠ u.kind)
    · rw [if_pos hany]
      obtain ⟨w, hw, heq⟩ := any_eq_true.mp hany
      simp only [Bool.and_eq_true, decide_eq_true_eq] at heq
      exact ⟨fun h => (nomatch h), fun h => absurd (h.2 w hw heq.1) heq.2⟩
    · rw [if_neg hany]
      refine ⟨fun _ => ⟨hu, fun w hw heq => ?_⟩, fun _ => rfl⟩
      by_contra hne
      exact hany (any_eq_true.mpr ⟨w, hw, by simp [heq, hne]⟩)

lemma checkMerge_eq_ok (h : c.checkMerge guest = .ok ()) (hu : guest.boundary.get? u = some ends) :
    c.boundary.get? u = none :=
  not_mem_units_iff.mp fun hmem => checkMerge_iff.mp h ⟨u, mem_units_iff.mpr ⟨ends, hu⟩, .inl hmem⟩

/-- **`d` is `c` with `guest` merged into it.** The copy of a vertex `v` is `ι v`. -/
structure IsMerged (policy : OpgroupPolicy) (copies : Copies) (ι : Vertex → Vertex) (c guest d : Circuit) : Prop where
  wellFormed : d.WellFormed
  copied : copyIn guest policy c =
    .ok copies { c with graph := d.graph, opgroups := mergedOpgroups policy c.opgroups guest.opgroups }
  isCopy : IsCopy c.graph guest.graph d.graph ι policy.keepsNames
  get : ∀ v, guest.graph.Live v → copies.get v = .ok (ι v)
  boundary : ∀ u, d.boundary.get? u = ((guest.boundary.get? u).map (Ends.map ι)).or (c.boundary.get? u)
  others : d = { c with graph := d.graph, boundary := d.boundary, opgroups := mergedOpgroups policy c.opgroups guest.opgroups }

lemma mergeIn_run (h : c.Wired unit) (hguest : guest.Wired unitG)
    (hpolicy : policy.check c.opgroups guest.opgroups = .ok ()) (hmerge : c.checkMerge guest = .ok ()) :
    ∃ copies d ι, mergeIn guest policy c = .ok copies d ∧ IsMerged policy copies ι c guest d := by
  obtain ⟨copies, g, ι, hcopyIn, hcopy, hcopies⟩ := copyIn_run h hguest hpolicy
  obtain ⟨unit', rank, hpending⟩ := pending_of_copy h hguest hcopy
  have hpending' : ({ c with graph := g, opgroups := mergedOpgroups policy c.opgroups guest.opgroups } :
    Circuit).Pending unit' rank (guest.movedEnds (Ends.map ι)) := hpending.congr rfl rfl
  obtain ⟨d, hregister, hwired, hreg⟩ := registerEnds_run id (Ends.map ι) (getEnds_copies hcopies hguest.toFramed) hpending'
    fun x hx => checkMerge_eq_ok hmerge (get?_iff_mem.mpr hx)
  have hgraph : d.graph = g := by rw [hreg.others]
  subst hgraph
  refine ⟨copies, d, ι, ?_, hwired.wellFormed, hcopyIn, hcopy, hcopies, hreg.get?_boundary, hreg.others⟩
  have hask : (ask fun host => host.checkMerge guest : Edit Unit) c = .ok () c := ask_of_ok hmerge
  exact (bind_ok (ask_of_ok hpolicy)).trans ((bind_ok hask).trans ((bind_ok hcopyIn).trans (bind_ok hregister)))

lemma mergeIn_eq_ok (h : c.WellFormed) (hguest : guest.WellFormed)
    (hrun : mergeIn guest policy c = .ok copies c') : policy.check c.opgroups guest.opgroups = .ok () ∧
      c.checkMerge guest = .ok () ∧ ∃ ι, IsMerged policy copies ι c guest c' := by
  obtain ⟨_, hpolicy, hrest⟩ := bind_ask_eq_ok.mp hrun
  obtain ⟨_, hmerge, _⟩ := bind_ask_eq_ok.mp hrest
  obtain ⟨_, _, ι, hrun', hmerged⟩ := mergeIn_run h.wired hguest.wired hpolicy hmerge
  obtain ⟨rfl, rfl⟩ := ok_unique hrun' hrun
  exact ⟨hpolicy, hmerge, ι, hmerged⟩

lemma mergeIn_keeps (hguest : guest.WellFormed) (policy : OpgroupPolicy) : Keeps WellFormed (mergeIn guest policy) := by
  intro c a c' h hrun
  obtain ⟨_, _, _, hmerged⟩ := mergeIn_eq_ok h hguest hrun
  exact hmerged.wellFormed

lemma parallel_wellFormed {first second : Circuit} (h : first.WellFormed) (h' : second.WellFormed)
    (hrun : first.parallel second = .ok c') : c'.WellFormed := by
  obtain ⟨a, hrun⟩ := edited_eq_ok.mp hrun
  obtain ⟨_, _, h1, hrest⟩ := bind_eq_ok.mp hrun
  cases hrest
  exact (mergeIn_keeps h' .merge _ _ _ h h1).of_graph rfl rfl

end Circuit

/-! # `Circuit.dagger` — circuits run backwards -/

/-- The copies of the two ends of a unit, exchanged. -/
def Ends.reverseMap (ι : Vertex → Vertex) (ends : Ends) : Ends := ⟨ι ends.output, ι ends.input⟩

namespace Circuit

open Wireloom.Graph List Option SortedMap

variable {c c' : Circuit} {unit : Pin → UnitId} {reverseOp : Op → Except CircuitError Op} {g : Graph} {k k' : NodeKind}
  {copies : Copies} {g' : Graph} {ns : List (Vertex × Node)} {phase : Angle} {u : UnitId}

/-! ## Reversed vertices -/

lemma reverseVertices_run (h : ∀ x ∈ ns, ∃ k, reversedKind reverseOp x.2.kind = .ok k) (g : Graph) :
    ∃ (xs : List (Vertex × NodeKind × Option String)) (copies : Copies) (g' : Graph),
      reverseVertices reverseOp ns g = .ok copies g' ∧ addCopies xs g = (copies, g') ∧
      xs.map Prod.fst = ns.map Prod.fst ∧
      ∀ v k og, (v, k, og) ∈ xs → ∃ n, (v, n) ∈ ns ∧ reversedKind reverseOp n.kind = .ok k ∧ og = n.opgroup := by
  induction ns generalizing g with
  | nil => exact ⟨[], [], g, rfl, rfl, rfl, by simp⟩
  | cons p rest ih =>
    obtain ⟨v, n⟩ := p
    obtain ⟨⟨k, hk⟩, hrest⟩ := forall_mem_cons.mp h
    obtain ⟨xs, copies, g', hrun, hadd, hkeys, hxs⟩ := ih hrest (g.withVertex k n.opgroup)
    refine ⟨(v, k, n.opgroup) :: xs, (v, g.vertices.nextHandle) :: copies, g', ?_, ?_, congrArg (v :: ·) hkeys,
      fun v' k' og' hmem => ?_⟩
    · show (Graph.ask _ >>= fun _ => _) g = _
      rw [bind_ok (Graph.ask_of_ok hk), bind_ok (addVertex_run g k n.opgroup), bind_ok hrun]
      rfl
    · show (_, _) = _
      rw [hadd]
    · rcases mem_cons.mp hmem with heq | hmem
      · cases heq
        exact ⟨n, mem_cons_self, hk, rfl⟩
      · obtain ⟨n', hn', hk', hog'⟩ := hxs v' k' og' hmem
        exact ⟨n', mem_cons_of_mem _ hn', hk', hog'⟩

lemma kinds_of_reverseVertices
    (h : reverseVertices reverseOp ns g = .ok copies g') : ∀ x ∈ ns, ∃ k, reversedKind reverseOp x.2.kind = .ok k := by
  induction ns generalizing g g' copies with
  | nil => exact fun _ hx => nomatch hx
  | cons p rest ih =>
    obtain ⟨k, _, h1, hrest1⟩ := bind_eq_ok.mp h
    obtain ⟨hk, rfl⟩ := Graph.ask_eq_ok.mp h1
    obtain ⟨w, _, _, hrest2⟩ := bind_eq_ok.mp hrest1
    obtain ⟨_, _, h3, _⟩ := bind_eq_ok.mp hrest2
    exact forall_mem_cons.mpr ⟨⟨k, hk⟩, ih h3⟩

/-- What stands at the copy of a vertex in the reversed circuit. -/
def Reverses (reverseOp : Op → Except CircuitError Op) (n : Node) (k : NodeKind) (og : Option String) : Prop :=
  reversedKind reverseOp n.kind = .ok k ∧ og = n.opgroup

/-- Operations reverse to operations on the same wires. -/
def KeepsSignature (reverseOp : Op → Except CircuitError Op) : Prop :=
  ∀ op op', reverseOp op = .ok op' → op'.signature = op.signature

variable (hop : KeepsSignature reverseOp) (h : reversedKind reverseOp k = .ok k') {ι : Vertex → Vertex}

include h in
lemma reversedKind_cases : (∃ kind, k = .input kind ∧ k' = .output kind) ∨ (∃ kind, k = .output kind ∧ k' = .input kind) ∨
    ∃ op op', k = .op op ∧ reverseOp op = .ok op' ∧ k' = .op op' := by
  cases k with
  | input kind => exact .inl ⟨kind, rfl, (Except.ok.inj h).symm⟩
  | output kind => exact .inr (.inl ⟨kind, rfl, (Except.ok.inj h).symm⟩)
  | create => cases h
  | discard => cases h
  | op op =>
    obtain ⟨op', hop', rfl⟩ := except_map_eq_ok.mp h
    exact .inr (.inr ⟨op, op', rfl, hop', rfl⟩)

include hop h in
lemma signature_reversedKind : k'.signature = k.signature := by
  obtain ⟨_, rfl, rfl⟩ | ⟨_, rfl, rfl⟩ | ⟨op, op', rfl, hop', rfl⟩ := reversedKind_cases h
  · rfl
  · rfl
  · exact hop op op' hop'

include h in
lemma startsUnit_reversedKind (hend : endsUnit u k) : startsUnit u k' := by
  obtain ⟨_, rfl, rfl⟩ | ⟨_, rfl, rfl⟩ | ⟨_, _, rfl, _, rfl⟩ := reversedKind_cases h <;> exact hend

include h in
lemma endsUnit_reversedKind (hstart : startsUnit u k) : endsUnit u k' := by
  obtain ⟨_, rfl, rfl⟩ | ⟨_, rfl, rfl⟩ | ⟨_, _, rfl, _, rfl⟩ := reversedKind_cases h <;> exact hstart

include h in
lemma isBoundary_reversedKind (hb : k'.isBoundary) : k.isBoundary := by
  obtain ⟨_, rfl, rfl⟩ | ⟨_, rfl, rfl⟩ | ⟨_, _, rfl, _, rfl⟩ := reversedKind_cases h
  · rfl
  · rfl
  · cases hb

/-! ## Reversed links -/

lemma reverseLink_linear {l : Link} {a : Unit} (h : reverseLink copies l g = .ok a g') : l.kind.isLinear := by
  by_contra hlin
  unfold reverseLink at h
  rw [if_pos (WireKind.eq_boolean hlin)] at h
  cases h

lemma reverseLinks_run {host guest : Graph}
    (hhosts : host.Hosts guest g ι (Reverses reverseOp)) (hhost : host.Valid) (hs : host.Simple) (hguest : guest.Valid)
    (hgs : guest.Simple) (hedges : g.edges = host.edges) (hcopies : ∀ v, guest.Live v → copies.get v = .ok (ι v))
    (hlin : ∀ l, guest.HasLink l → l.kind.isLinear) :
    ∃ g', guest.edgeList.forM (fun p => reverseLink copies p.2) g = .ok ⟨⟩ g' ∧
      Grows g g' fun m => ∃ l, guest.HasLink l ∧ m = l.reverseMap ι :=
  hhosts.links_run (fun l => l.reverseMap ι) hhost hguest hgs hedges hs (fun l g1 hl => by
      unfold reverseLink
      rw [if_neg (WireKind.ne_boolean (hlin l hl))]
      show (Graph.ask _ >>= fun _ => _) g1 = _
      rw [bind_ok (Graph.ask_of_ok (hcopies _ (hguest.target_live hl))),
        bind_ok (Graph.ask_of_ok (hcopies _ (hguest.source_live hl)))]
      rfl)
    (fun l hl => ⟨_, _, hguest.target_live hl, hguest.source_live hl, rfl, rfl⟩)
    (fun l m hl hm heq => by
      obtain ⟨ht, hs, hk⟩ := Link.mk.inj heq
      refine Graph.Link.map_injective hguest hhosts.injective hl hm ?_
      unfold Link.map
      rw [ht, hs, hk])

/-! ## The reversed circuit -/

lemma wireAt_isLinear (h : c.Wired unit) (hlin : ∀ l, c.graph.HasLink l → l.kind.isLinear) {p : Pin}
    {k : WireKind} (hp : c.graph.net.wireAt p = some k) : k.isLinear := by
  by_cases hfirst : c.IsInput p.vertex
  · obtain ⟨_, hs, hk'⟩ := h.complete.first_wire hfirst
    rw [(Net.pin_of_single hs hp).2]
    exact hk'
  · obtain ⟨l, hl, rfl⟩ := (h.complete.fed_iff hp).mpr hfirst
    rw [← mem_unique (h.threaded.target_wire hl) hp]
    exact hlin l hl

lemma pending_of_reverse (host : Circuit) (hop : KeepsSignature reverseOp) (h : c.Wired unit)
    (hgraph : host.graph = {}) (hboundary : host.boundary = .empty)
    (hhosts : host.graph.Hosts c.graph g ι (Reverses reverseOp)) (hsimple : g.Simple)
    (hlin : ∀ l, c.graph.HasLink l → l.kind.isLinear)
    (hlinks : ∀ m, g.HasLink m ↔ host.graph.HasLink m ∨ ∃ l, c.graph.HasLink l ∧ m = l.reverseMap ι) :
    ∃ (unit' : Pin → UnitId) (rank : Vertex → ℕᵒᵈ),
      { host with graph := g }.Pending unit' rank (c.movedEnds (Ends.reverseMap ι)) := by
  obtain ⟨κ, hκ⟩ := hhosts.exists_inverse
  obtain ⟨r, _, _, hr⟩ := h.exists_rank
  have hnone : ∀ v, host.graph.kind? v = none := fun v => by rw [hgraph]; rfl
  have hdead : ∀ v, ¬ host.graph.Live v := fun v hv => by
    obtain ⟨k, hk⟩ := live_iff_kind?.mp hv
    rw [hnone] at hk; cases hk
  have hunit : ∀ p, c.graph.Live p.vertex → unit ((p.map ι).map κ) = unit p := by
    intro p hp
    show unit ⟨κ (ι p.vertex), p.index⟩ = _
    rw [hκ _ hp]
  have hreverse : c.graph.net.IsReverse ι (copyNet host.graph g fun m => ∃ l, c.graph.HasLink l ∧ m = l.reverseMap ι) :=
    { toMoves := hhosts.moves fun _ _ _ hb => signature_reversedKind hop hb.1
      link := fun _ => Iff.rfl
      linear := fun hl => hlin _ hl }
  have hkind : ∀ {v k}, c.graph.kind? v = some k → ∃ k', g.kind? (ι v) = some k' ∧ reversedKind reverseOp k = .ok k' := by
    intro v k hk
    obtain ⟨n, hn, rfl⟩ := map_eq_some_iff.mp hk
    obtain ⟨k', _, _, hget, hb⟩ := hhosts.new hn
    exact ⟨k', by unfold kind?; rw [hget]; rfl, hb.1⟩
  -- there is nothing in the host, and ranks go down where they went up
  have hwait : host.Arrives g (copyNet host.graph g fun m => ∃ l, c.graph.HasLink l ∧ m = l.reverseMap ι)
      (fun p => unit (p.map κ)) (fun v => OrderDual.toDual (r (κ v))) (c.movedEnds (Ends.reverseMap ι)) :=
    { valid := hhosts.valid, simple := hsimple, union := hhosts.isUnion hlinks
      threaded := hreverse.threaded h.threaded fun p hp => hunit p (signature?_iff.mp hp)
      complete := hreverse.complete h.threaded.toFitted h.complete (fun hp => wireAt_isLinear h hlin hp)
        (exists_movedEnds fun _ => rfl) (exists_movedEnds fun _ => rfl)
      ranked := hreverse.ranked h.threaded.toFitted hr fun v hv => by rw [hκ v (signature?_iff.mp hv)]
      old := fun hk => by rw [hnone] at hk; cases hk
      starts := forall_movedEnds fun hu => by
        obtain ⟨k, hk, hend⟩ := h.stops hu
        obtain ⟨k', hk', hrev⟩ := hkind hk
        exact ⟨k', hk', startsUnit_reversedKind hrev hend⟩
      stops := forall_movedEnds fun hu => by
        obtain ⟨k, hk, hstart⟩ := h.starts hu
        obtain ⟨k', hk', hrev⟩ := hkind hk
        exact ⟨k', hk', endsUnit_reversedKind hrev hstart⟩
      only_ops := fun {w k} hk hb => by
        obtain ⟨n, hn, _⟩ := map_eq_some_iff.mp hk
        rcases hhosts.cases hn with hold | ⟨v, hv, rfl⟩
        · exact absurd (live_of_get? hold) (hdead w)
        · obtain ⟨_, hk0⟩ := live_iff_kind?.mp hv
          obtain ⟨k', hk', hrev⟩ := hkind hk0
          rw [hk] at hk'; cases hk'
          rcases h.only_ops hk0 (isBoundary_reversedKind hrev hb) with ⟨u, ends0, hu, rfl⟩ | ⟨u, ends0, hu, rfl⟩
          · exact .inr ⟨(u, _), mem_movedEnds.mpr ⟨ends0, hu, rfl⟩, .inr rfl⟩
          · exact .inr ⟨(u, _), mem_movedEnds.mpr ⟨ends0, hu, rfl⟩, .inl rfl⟩
      unit_input := forall_movedEnds fun hu => (hunit _ (h.live_output hu)).trans (h.unit_output hu)
      unit_output := forall_movedEnds fun hu => (hunit _ (h.live_input hu)).trans (h.unit_input hu)
      nodup := c.nodup_movedEnds _
      after := fun _ _ v hv => absurd hv (hdead v) }
  have hempty := (wellFormed_empty hgraph hboundary).wired
  refine ⟨_, _, Pending.of_arrives hwait hempty (fun p hp => absurd hp (hdead _)) fun v w hvw => ?_⟩
  exact absurd (live_of_before hempty.threaded hvw).1 (hdead v)

/-! ## When circuits can be run backwards -/

/-- **A circuit that can be run backwards**: all that stands in it can be reversed, and nothing is read. -/
structure Reversible (reverseOp : Op → Except CircuitError Op) (c : Circuit) : Prop where
  kinds : ∀ {v n}, c.graph.vertices.get? v = some n → ∃ k, reversedKind reverseOp n.kind = .ok k
  linear : ∀ {l}, c.graph.HasLink l → l.kind.isLinear = true

lemma Reversible.kind_of_kind? (hr : c.Reversible reverseOp) {v : Vertex} (hk : c.graph.kind? v = some k)
    : ∃ k', reversedKind reverseOp k = .ok k' := by
  obtain ⟨n, hn, rfl⟩ := map_eq_some_iff.mp hk
  exact hr.kinds hn

include h in
lemma not_created_of_reversedKind : k.isCreate = false ∧ k.isDiscard = false := by
  obtain ⟨_, rfl, _⟩ | ⟨_, rfl, _⟩ | ⟨_, _, rfl, _⟩ := reversedKind_cases h <;> exact ⟨rfl, rfl⟩

lemma Reversible.checkReversible_run (hr : c.Reversible reverseOp) (h : c.Framed) {u : UnitId} {ends : Ends}
    (hu : c.boundary.get? u = some ends) : c.checkReversible u = .ok () := by
  obtain ⟨k, hk, _⟩ := h.starts hu
  obtain ⟨k', hk', _⟩ := h.stops hu
  obtain ⟨_, hrev⟩ := hr.kind_of_kind? hk
  obtain ⟨_, hrev'⟩ := hr.kind_of_kind? hk'
  unfold checkReversible isCreated isDiscarded
  rw [ends_eq_ok.mpr hu]
  show ((c.graph.kind ends.input >>= fun k => pure k.isCreate) >>= fun _ => _) = _
  rw [kind_eq_ok.mpr hk]
  show (if k.isCreate then _ else _) = _
  rw [(not_created_of_reversedKind hrev).1]
  show ((c.graph.kind ends.output >>= fun k => pure k.isDiscard) >>= fun _ => _) = _
  rw [kind_eq_ok.mpr hk']
  show (if k'.isDiscard then _ else _) = _
  rw [(not_created_of_reversedKind hrev').2]
  rfl

lemma reversible_of_ok (h : c.WellFormed) (hrun : c.reversed reverseOp phase = .ok c') : c.Reversible reverseOp := by
  obtain ⟨_, _, hedit⟩ := bind_ok_iff.mp hrun
  obtain ⟨a, hedit⟩ := edited_eq_ok.mp hedit
  obtain ⟨_, _, h1, hrest1⟩ := bind_eq_ok.mp hedit
  obtain ⟨_, hvertices, rfl⟩ := onGraph_eq_ok.mp h1
  obtain ⟨_, _, h2, _⟩ := bind_eq_ok.mp hrest1
  obtain ⟨_, hlinks, rfl⟩ := onGraph_eq_ok.mp h2
  refine ⟨fun {v n} hn => ?_, fun {l} hl => ?_⟩
  · exact kinds_of_reverseVertices hvertices (v, n) (mem_reverse.mpr ((mem_bySequence h.valid).mpr hn))
  · obtain ⟨e, he⟩ := hl
    obtain ⟨_, _, hrun⟩ := forM_mem_ok hlinks (e, l) ((mem_edgeList h.valid).mpr he)
    exact reverseLink_linear hrun

/-! ## What it gives -/

/-- **`c'` has the vertices of `c` with everything turned round**: what stands in them, the links, and the ends of units. -/
structure IsReversal (reverseOp : Op → Except CircuitError Op) (ι : Vertex → Vertex) (c c' : Circuit) : Prop where
  injective : ∀ {v w}, c.graph.Live v → c.graph.Live w → ι v = ι w → v = w
  surjective : ∀ {w}, c'.graph.Live w → ∃ v, c.graph.Live v ∧ ι v = w
  node : ∀ {v n}, c.graph.vertices.get? v = some n → ∃ n', c'.graph.vertices.get? (ι v) = some n' ∧
    reversedKind reverseOp n.kind = .ok n'.kind ∧ n'.opgroup = n.opgroup
  link : ∀ m, c'.graph.HasLink m ↔ ∃ l, c.graph.HasLink l ∧ m = l.reverseMap ι
  boundary : ∀ u, c'.boundary.get? u = (c.boundary.get? u).map (Ends.reverseMap ι)

lemma IsReversal.exists_node (h : IsReversal reverseOp ι c c') {w : Vertex} {n' : Node}
    (hn' : c'.graph.vertices.get? w = some n') : ∃ v n, c.graph.vertices.get? v = some n ∧ ι v = w ∧
      reversedKind reverseOp n.kind = .ok n'.kind ∧ n'.opgroup = n.opgroup := by
  obtain ⟨v, hv, rfl⟩ := h.surjective (live_of_get? hn')
  obtain ⟨n, hn⟩ := live_iff.mp hv
  obtain ⟨_, hn1, hkind, hog⟩ := h.node hn
  cases mem_unique hn' hn1
  exact ⟨v, n, hn, rfl, hkind, hog⟩

/-- **The circuit run backwards.** Its vertices were made in the opposite order. -/
structure IsReversed (reverseOp : Op → Except CircuitError Op) (phase : Angle) (ι : Vertex → Vertex) (c c' : Circuit) :
    Prop extends IsReversal reverseOp ι c c' where
  wellFormed : c'.WellFormed
  made : c'.graph.bySequence.map Prod.fst = ((c.graph.bySequence.map Prod.fst).map ι).reverse
  name : c'.name = c.name
  opgroups : c'.opgroups = c.opgroups
  phase : c'.phase = phase

include hop in
/-- **A circuit that can be run backwards is run backwards**, if operations keep their signatures. -/
theorem reversed_run (h : c.WellFormed) (hr : c.Reversible reverseOp) (phase : Angle) :
    ∃ c' ι, c.reversed reverseOp phase = .ok c' ∧ IsReversed reverseOp phase ι c c' := by
  let host : Circuit := { name := c.name, opgroups := c.opgroups, phase }
  have hhost := wellFormed_empty (c := host) rfl rfl
  -- the vertices come in from the last one on, then the links, and the ends of units are tied last
  obtain ⟨xs, copies, g1, hvertices, hadd, hkeys, hxs⟩ := reverseVertices_run
    (fun x hx => hr.kinds ((mem_bySequence h.valid).mp (mem_reverse.mp hx))) host.graph
  rw [map_reverse] at hkeys
  have hadded := addCopies_added hhost.valid xs
  rw [hadd] at hadded
  obtain ⟨hhosts, hcopies⟩ := hadded.hosts c.graph (Reverses reverseOp)
    (by rw [hkeys, nodup_reverse]; exact nodup_bySequence h.valid)
    (fun v => by rw [hkeys, mem_reverse]; exact mem_map_bySequence h.valid)
    (fun v k og n hmem hn => by
      obtain ⟨_, hn', hk, hog⟩ := hxs v k og hmem
      rw [(mem_bySequence h.valid).mp (mem_reverse.mp hn')] at hn
      cases hn
      exact ⟨hk, hog⟩)
  obtain ⟨g2, hlinks, hgrow⟩ := reverseLinks_run hhosts hhost.valid hhost.simple h.valid h.simple hadded.edges hcopies
    fun _ => hr.linear
  have hnolink : ∀ m, ¬ g1.HasLink m := by
    rintro m ⟨e, he⟩
    rw [hadded.edges] at he
    cases he
  have hall : ∀ m, g2.HasLink m ↔ ∃ l, c.graph.HasLink l ∧ m = l.reverseMap (copyOf copies) := fun m =>
    (hgrow.links m).trans (or_iff_right (hnolink m))
  obtain ⟨_, _, hpending⟩ := pending_of_reverse host hop h.wired rfl rfl
    (hhosts.of_vertices hgrow.vertices hgrow.valid) hgrow.simple (fun _ => hr.linear) fun m => by
      rw [hgrow.links]
      unfold HasLink
      rw [hadded.edges]
  obtain ⟨c3, h3, hdone, hreg⟩ := registerEnds_run (fun ends => ⟨ends.output, ends.input⟩) (Ends.reverseMap _) (fun x hx => by
      have hu := get?_iff_mem.mpr hx
      unfold Copies.getEnds
      rw [hcopies _ (h.live_input hu), hcopies _ (h.live_output hu)]
      rfl)
    hpending fun _ _ => rfl
  have hgraph : c3.graph = g2 := by rw [hreg.others]
  refine ⟨c3, copyOf copies, ?_, ⟨hhosts.injective, fun {w} hw => ?_, fun {v n} hn => ?_, by rw [hgraph]; exact hall,
    fun u => ?_⟩, hdone.wellFormed, ?_, by rw [hreg.others], by rw [hreg.others], by rw [hreg.others]⟩
  · unfold reversed
    have hcheck : c.units.forM c.checkReversible = .ok () := except_forM_eq_ok.mpr fun u hu => by
      obtain ⟨ends, hends⟩ := mem_keys_iff.mp hu
      exact hr.checkReversible_run h.toFramed hends
    refine except_bind_ok hcheck (edited_eq_ok.mpr ⟨⟨⟩, ?_⟩)
    rw [bind_ok (onGraph_of_ok hvertices), bind_ok (onGraph_of_ok hlinks)]
    exact h3
  · obtain ⟨n, hn⟩ := live_iff.mp hw
    rw [hgraph, hgrow.vertices] at hn
    rcases hhosts.cases hn with hold | horigin
    · cases hold
    · exact horigin
  · obtain ⟨k, og, _, hget, hk, hog⟩ := hhosts.new hn
    rw [hgraph, hgrow.vertices]
    exact ⟨_, hget, hk, hog⟩
  · rw [hreg.get?_boundary]
    exact or_none
  · have hsequenced : host.graph.Sequenced := fun _ _ hn => nomatch hn
    rw [hgraph, made_of_vertices hgrow.vertices, hadded.made hsequenced, ← map_reverse, ← hkeys, ← hadded.keys,
      map_copyOf (by rw [hadded.keys, hkeys, nodup_reverse]; exact nodup_bySequence h.valid)]
    rfl

include hop in
lemma reversed_eq_ok (h : c.WellFormed) (hrun : c.reversed reverseOp phase = .ok c') :
    ∃ ι, IsReversed reverseOp phase ι c c' := by
  obtain ⟨_, ι, hrun1, hrev⟩ := reversed_run hop h (reversible_of_ok h hrun) phase
  rw [hrun] at hrun1
  cases hrun1
  exact ⟨ι, hrev⟩

include hop in
lemma reversed_wellFormed (h : c.WellFormed) (hrun : c.reversed reverseOp phase = .ok c') : c'.WellFormed := by
  obtain ⟨_, hrev⟩ := reversed_eq_ok hop h hrun
  exact hrev.wellFormed

lemma dagger_wellFormed (h : c.WellFormed) (hrun : c.dagger = .ok c') : c'.WellFormed :=
  reversed_wellFormed (fun _ _ => Op.signature_dagger) h hrun

lemma transpose_wellFormed (h : c.WellFormed) (hrun : c.transpose = .ok c') : c'.WellFormed :=
  reversed_wellFormed (fun _ _ => Op.signature_transpose) h hrun

end Circuit

end Wireloom
