import Wireloom.Circuit.Hole
import Wireloom.Proofs.Plug
import Wireloom.Proofs.WellFormed

/-!
# `Circuit.IsHole` — what the hole of a region holds

`IsHole` says of a hole that its slots are where the wires of units enter and leave its interior, one for each unit
whose wire passes through, and its reads are all that read inside from outside.
-/

namespace Wireloom

/-! ## Reachability -/

namespace Graph

variable {g : Graph} {v w : Vertex} {seen : List Vertex} {n : Nat}

lemma mem_successors (hg : g.Valid) : w ∈ g.successors v ↔ ∃ l, g.HasLink l ∧ l.source.vertex = v ∧ l.target.vertex = w := by
  unfold successors
  rw [List.mem_map]
  constructor
  · rintro ⟨⟨e, l⟩, hmem, rfl⟩
    obtain ⟨he, hs⟩ := (mem_outgoing hg).mp hmem
    exact ⟨l, ⟨e, he⟩, hs, rfl⟩
  · rintro ⟨l, ⟨e, he⟩, hs, rfl⟩
    exact ⟨(e, l), (mem_outgoing hg).mpr ⟨he, hs⟩, rfl⟩

lemma subset_growFor : v ∈ seen → v ∈ g.growFor n seen := by
  induction n generalizing seen with
  | zero => exact id
  | succ n ih =>
    intro hv
    rw [growFor]
    split
    · exact hv
    · exact ih (List.mem_append_left _ hv)

/-- The vertices that are not seen yet. -/
def unseen (g : Graph) (seen : List Vertex) : List Vertex :=
  (g.vertices.entries.map Prod.fst).filter fun v => !seen.contains v

lemma mem_unseen (hg : g.Valid) : v ∈ g.unseen seen ↔ g.Live v ∧ v ∉ seen := by
  unfold unseen
  rw [List.mem_filter, live_iff, List.mem_map]
  constructor
  · rintro ⟨⟨⟨_, n⟩, hmem, rfl⟩, hnot⟩
    exact ⟨⟨n, (SlotStore.get?_eq_some_iff hg.vertices).mpr hmem⟩, by simpa using hnot⟩
  · rintro ⟨⟨n, hn⟩, hnot⟩
    exact ⟨⟨(v, n), (SlotStore.get?_eq_some_iff hg.vertices).mp hn, rfl⟩, by simpa using hnot⟩

/-- The successors of what is seen that are not seen yet. -/
def found (g : Graph) (seen : List Vertex) : List Vertex :=
  ((seen.flatMap g.successors).filter fun v => !seen.contains v).eraseDups

lemma mem_found (hg : g.Valid) : w ∈ g.found seen ↔
    w ∉ seen ∧ ∃ l, g.HasLink l ∧ l.source.vertex ∈ seen ∧ l.target.vertex = w := by
  unfold found
  rw [List.mem_eraseDups, List.mem_filter, List.mem_flatMap]
  constructor
  · rintro ⟨⟨v, hv, hw⟩, hnot⟩
    obtain ⟨l, hl, rfl, rfl⟩ := (mem_successors hg).mp hw
    exact ⟨by simpa using hnot, l, hl, hv, rfl⟩
  · rintro ⟨hnot, l, hl, hv, rfl⟩
    exact ⟨⟨_, hv, (mem_successors hg).mpr ⟨l, hl, rfl, rfl⟩⟩, by simpa using hnot⟩

lemma growFor_of_nil (h : g.found seen = []) : g.growFor (n + 1) seen = seen := by
  unfold found at h
  rw [growFor, h]

lemma growFor_of_cons {new : List Vertex} (h : g.found seen = v :: new) :
    g.growFor (n + 1) seen = g.growFor n (seen ++ v :: new) := by
  unfold found at h
  rw [growFor, h]

lemma unseen_append (new : List Vertex) : g.unseen (seen ++ new) = (g.unseen seen).filter fun v => !new.contains v := by
  unfold unseen
  rw [List.filter_filter]
  congr 1
  funext v
  rw [List.contains_append, Bool.not_or, Bool.and_comm]

/-- **With enough rounds everything that links lead to is seen.** Each round that finds something new leaves fewer
    vertices unseen. -/
theorem growFor_closed (hg : g.Valid) (hn : (g.unseen seen).length ≤ n) {l : Link} (hl : g.HasLink l)
    (hs : l.source.vertex ∈ g.growFor n seen) : l.target.vertex ∈ g.growFor n seen := by
  induction n generalizing seen with
  | zero =>
    -- nothing is unseen, and what a link leads to is there
    by_contra hnot
    have hmem : l.target.vertex ∈ g.unseen seen := (mem_unseen hg).mpr ⟨hg.target_live hl, hnot⟩
    rw [List.length_eq_zero_iff.mp (Nat.le_zero.mp hn)] at hmem
    cases hmem
  | succ n ih =>
    cases hfound : g.found seen with
    | nil =>
      rw [growFor_of_nil hfound] at hs ⊢
      by_contra hnot
      have hmem := (mem_found hg).mpr ⟨hnot, l, hl, hs, rfl⟩
      rw [hfound] at hmem
      cases hmem
    | cons x xs =>
      rw [growFor_of_cons hfound] at hs ⊢
      refine ih ?_ hs
      obtain ⟨hx, m, hm, _, rfl⟩ := (mem_found hg).mp (hfound ▸ List.mem_cons_self)
      have hlt : (g.unseen (seen ++ m.target.vertex :: xs)).length < (g.unseen seen).length := by
        rw [unseen_append, List.length_filter_lt_length_iff_exists]
        exact ⟨_, (mem_unseen hg).mpr ⟨hg.target_live hm, hx⟩, by simp⟩
      omega

lemma path_of_mem_growFor (hg : g.Valid) (hw : w ∈ g.growFor n seen) : ∃ v ∈ seen,
    Relation.ReflTransGen (fun v w => ∃ l, g.HasLink l ∧ l.source.vertex = v ∧ l.target.vertex = w) v w := by
  induction n generalizing seen with
  | zero => exact ⟨w, hw, .refl⟩
  | succ n ih =>
    cases hfound : g.found seen with
    | nil =>
      rw [growFor_of_nil hfound] at hw
      exact ⟨w, hw, .refl⟩
    | cons x xs =>
      rw [growFor_of_cons hfound] at hw
      obtain ⟨v, hv, hpath⟩ := ih hw
      rcases List.mem_append.mp hv with hv | hv
      · exact ⟨v, hv, hpath⟩
      · obtain ⟨_, l, hl, hs, rfl⟩ := (mem_found hg).mp (hfound ▸ hv)
        exact ⟨_, hs, .head ⟨l, hl, rfl, rfl⟩ hpath⟩

lemma mem_reachable (hg : g.Valid) {start : List Vertex} (hv : v ∈ start)
    (hpath : Relation.ReflTransGen (fun v w => ∃ l, g.HasLink l ∧ l.source.vertex = v ∧ l.target.vertex = w) v w) :
    w ∈ g.reachable start := by
  have hn : (g.unseen start.eraseDups).length ≤ g.vertices.size := by
    exact (List.length_filter_le _ _).trans_eq (List.length_map _)
  induction hpath with
  | refl => exact subset_growFor (List.mem_eraseDups.mpr hv)
  | tail _ hstep ih =>
    obtain ⟨l, hl, rfl, rfl⟩ := hstep
    exact growFor_closed hg hn hl ih

end Graph

namespace Circuit

open Wireloom.Graph List SortedMap Option SlotStore Relation WireKind SortedSet NodeKind

variable {c : Circuit} {unit : Pin → UnitId} {u : UnitId} {region : SortedSet Vertex} {v : Vertex} {l : Link} {e : Edge}
  {hole : Hole}
  {a : Unit} {cr : Crossing} {crossings : SortedMap UnitId Crossing} {done : List (Edge × Link)} {slot : Edge × Option Edge}

/-! ## Convexity -/

/-- A link leads from one vertex to the other. -/
def Linked (c : Circuit) (v w : Vertex) : Prop := ∃ l, c.graph.HasLink l ∧ l.source.vertex = v ∧ l.target.vertex = w

lemma reachable_outside_iff (hg : c.graph.Valid) :
    ((c.graph.reachable (c.outsideSuccessors region)).all fun v => !region.contains v) ↔
      Net.Convex c.Linked fun v => region.contains v := by
  have hstart : ∀ {w}, w ∈ c.outsideSuccessors region ↔ (∃ v, region.contains v ∧ c.Linked v w) ∧ ¬ region.contains w := by
    intro w
    unfold outsideSuccessors
    simp only [mem_filter, mem_flatMap, SortedSet.mem_toList, mem_successors hg, Bool.not_eq_true']
    rw [Bool.not_eq_true]
    rfl
  rw [List.all_eq_true]
  constructor
  · intro hall v w x hv hw hstep hpath hx
    have hmem := hall x (mem_reachable hg (hstart.mpr ⟨⟨v, hv, hstep⟩, hw⟩) hpath)
    rw [hx] at hmem
    cases hmem
  · intro h x hx
    obtain ⟨w, hw, hpath⟩ := path_of_mem_growFor hg hx
    obtain ⟨⟨v, hv, hstep⟩, hout⟩ := hstart.mp (mem_eraseDups.mp hw)
    simpa using h hv hout hstep hpath

variable (hg : c.graph.Valid) (hlive : ∀ {v}, region.contains v → c.graph.Live v)
  (hc : c.Wired unit) (h : c.holeOf region = .ok hole) {n : Nat}

include hlive in
lemma isConvex_of_live :
    c.isConvex region = .ok ((c.graph.reachable (c.outsideSuccessors region)).all fun v => !region.contains v) := by
  refine bind_ok_iff.mpr ⟨⟨⟩, except_forM_eq_ok.mpr fun v hv => ?_, rfl⟩
  obtain ⟨n, hn, _⟩ := node_of_live (hlive (mem_toList.mp hv))
  rw [hn]
  rfl

lemma checkConvex_eq_ok (hg : c.graph.Valid) (h : c.checkConvex region = .ok a) :
    Net.Convex c.Linked fun v => region.contains v := by
  obtain ⟨b, hb, hif⟩ := bind_ok_iff.mp h
  obtain ⟨_, _, hb⟩ := bind_ok_iff.mp hb
  cases hb
  split at hif
  · next hall => exact (reachable_outside_iff hg).mp hall
  · cases hif

include hg hlive in
lemma checkConvex_of_convex (h : Net.Convex c.Linked fun v => region.contains v) : c.checkConvex region = .ok () :=
  except_bind_ok ((isConvex_of_live hlive).trans (congrArg _ ((reachable_outside_iff hg).mpr h))) rfl

/-! ## The slots of a hole -/

/-- The wire goes on from one pin to the other inside the region. -/
def Inside (c : Circuit) (region : SortedSet Vertex) (p q : Pin) : Prop :=
  c.graph.net.Joined p q ∧ region.contains q.vertex = true

/-- **What a slot of a hole is**: an edge that enters the region and the edge through which the same wire leaves it,
    or an edge that only reads. Between the two the wire stays inside. -/
structure IsSlot (c : Circuit) (region : SortedSet Vertex) (slot : Edge × Option Edge) (entry : Link) : Prop where
  get?_entry : c.graph.edges.get? slot.1 = some entry
  outside : ¬ region.contains entry.source.vertex = true
  inside : region.contains entry.target.vertex = true
  read : slot.2 = none → entry.kind = .boolean
  exit : ∀ {e}, slot.2 = some e → entry.kind.isLinear = true ∧ ∃ l, c.graph.edges.get? e = some l ∧
    l.kind.isLinear = true ∧ ¬ region.contains l.target.vertex = true ∧
    Relation.ReflTransGen (c.Inside region) entry.target l.source

/-- Two slots belong to different units if one of them has a wire. -/
def SlotsApart (c : Circuit) (unit : Pin → UnitId) (a b : Edge × Option Edge) : Prop :=
  ∀ l m, c.graph.edges.get? a.1 = some l → c.graph.edges.get? b.1 = some m →
    a.2.isSome = true ∨ b.2.isSome = true → unit l.source ≠ unit m.source

instance : Std.Symm (c.SlotsApart unit) where
  symm _ _ h l m hl hm hor := (h m l hm hl hor.symm).symm

/-- **What a hole is.** Its slots are where wires and reads come in: every wire at one slot, of which it has no other,
    nor one that only reads. Its reads are those that leave. -/
structure IsHole (c : Circuit) (unit : Pin → UnitId) (hole : Hole) : Prop where
  interior : ∀ {v}, hole.interior.contains v = true → ∃ k, c.graph.kind? v = some k ∧ k.isBoundary = false
  length_eq : hole.entries.length = hole.exits.length
  slot : ∀ {slot}, slot ∈ hole.entries.zip hole.exits → ∃ entry, c.IsSlot hole.interior slot entry
  enters : ∀ {e l}, c.graph.edges.get? e = some l → l.kind.isLinear = true →
    ¬ hole.interior.contains l.source.vertex = true → hole.interior.contains l.target.vertex = true →
    ∃ x, (e, some x) ∈ hole.entries.zip hole.exits
  reads_enter : ∀ {e l}, c.graph.edges.get? e = some l → l.kind = .boolean →
    ¬ hole.interior.contains l.source.vertex = true → hole.interior.contains l.target.vertex = true →
    ∃ slot ∈ hole.entries.zip hole.exits, ∃ entry, c.graph.edges.get? slot.1 = some entry ∧ entry.source = l.source
  reads : ∀ {e}, e ∈ hole.reads ↔ ∃ l, c.graph.edges.get? e = some l ∧ l.kind = .boolean ∧
    hole.interior.contains l.source.vertex = true ∧ ¬ hole.interior.contains l.target.vertex = true
  reads_nodup : hole.reads.Nodup
  distinct : (hole.entries.zip hole.exits).Pairwise (c.SlotsApart unit)

lemma IsHole.not_isInput (h : c.IsHole unit hole) (hc : c.Framed) (hv : hole.interior.contains v)
    : ¬ c.IsInput v ∧ ¬ c.IsOutput v := by
  obtain ⟨k, hk, _⟩ := h.interior hv
  constructor
  · intro hin
    have hstart := (hc.isStart_iff hk).mpr hin
    cases k <;> simp_all [isStart, isBoundary]
  · intro hout
    have hend := (hc.isEnd_iff hk).mpr hout
    cases k <;> simp_all [isEnd, isBoundary]

lemma contains_of_inside {p q : Pin} (hp : region.contains p.vertex)
    (hpath : ReflTransGen (c.Inside region) p q) : region.contains q.vertex := by
  cases hpath with
  | refl => exact hp
  | tail _ hstep => exact hstep.2

lemma IsSlot.exit_spec {entry : Link} (h : c.IsSlot region slot entry)
    (hc : c.Wired unit) (he : slot.2 = some e) : entry.kind.isLinear ∧ ∃ l, c.graph.edges.get? e = some l ∧
      l.kind.isLinear ∧ region.contains l.source.vertex ∧ ¬ region.contains l.target.vertex ∧
      l.kind = entry.kind ∧ unit l.source = unit entry.source ∧
      ReflTransGen (c.Inside region) entry.target l.source := by
  obtain ⟨hentry, l, hl, hlin, hleave, hinside⟩ := h.exit he
  have hpath : ReflTransGen c.graph.net.Joined entry.target l.source :=
    hinside.lift id fun _ _ hstep => hstep.1
  have hlink : c.graph.net.link entry := ⟨_, h.get?_entry⟩
  refine ⟨hentry, l, hl, hlin, contains_of_inside h.inside hinside, hleave, ?_, ?_, hinside⟩
  · have hwire := hc.threaded.wireAt_of_path hpath
    rw [hc.threaded.target_wire hlink, hc.threaded.source_wire ⟨_, hl⟩, carrier_eq hlin] at hwire
    exact (some.inj hwire).symm
  · rw [hc.threaded.same_unit hlink hentry]
    exact (hc.threaded.unit_of_joined hpath).symm

/-- **Every wire inside came in**: following it back from a pin leads out of the region. -/
theorem IsHole.exists_entry (h : c.IsHole unit hole) (hc : c.Wired unit) {p : Pin} {k : WireKind}
    (hp : c.graph.net.wireAt p = some k) (hk : k.isLinear) (hin : hole.interior.contains p.vertex) :
    ∃ a, c.graph.HasLink a ∧ a.kind.isLinear ∧ ¬ hole.interior.contains a.source.vertex ∧
      hole.interior.contains a.target.vertex ∧ ReflTransGen (c.Inside hole.interior) a.target p := by
  obtain ⟨rank, _, _, hrank⟩ := hc.exists_rank
  induction hn : rank p.vertex using Nat.strong_induction_on generalizing p with
  | _ n ih =>
    obtain ⟨a, ha, rfl⟩ := (hc.complete.fed_iff hp).mpr (h.not_isInput hc.toFramed hin).1
    have hak : a.kind = k := mem_unique (hc.threaded.target_wire ha) hp
    have hlin : a.kind.isLinear := by rw [hak]; exact hk
    by_cases hs : hole.interior.contains a.source.vertex
    · have hsource := hc.threaded.source_wire ha
      rw [carrier_eq hlin, hak] at hsource
      obtain ⟨b, hb, hblin, hbout, hbin, hpath⟩ := ih _ (hn ▸ hrank.link ha) hsource hs rfl
      exact ⟨b, hb, hblin, hbout, hbin, hpath.tail ⟨Net.joined_of_link ha hlin, hin⟩⟩
    · exact ⟨a, ha, hlin, hs, hin, .refl⟩

lemma Wired.inside_right_unique (hc : c.Wired unit) : Relator.RightUnique (c.Inside region) := fun _ _ _ hp hq =>
  hc.threaded.joined_right_unique hp.1 hq.1

lemma IsHole.leaves (h : c.IsHole unit hole) (hc : c.Wired unit) (he : c.graph.edges.get? e = some l)
    (hlin : l.kind.isLinear) (hs : hole.interior.contains l.source.vertex)
    (ht : ¬ hole.interior.contains l.target.vertex) : ∃ e', (e', some e) ∈ hole.entries.zip hole.exits := by
  have hl : c.graph.net.link l := ⟨e, he⟩
  obtain ⟨a, ⟨e', he'⟩, halin, haout, hain, hpath⟩ :=
    h.exists_entry hc (hc.threaded.source_wire hl) (isLinear_carrier _) hs
  obtain ⟨x, hx⟩ := h.enters he' halin haout hain
  obtain ⟨entry, hslot⟩ := h.slot hx
  obtain ⟨_, m, hm, hmlin, _, hmt, _, _, hpath'⟩ := hslot.exit_spec hc rfl
  have hentry : a = entry := mem_unique he' hslot.get?_entry
  subst hentry
  -- a wire that goes on outside does not go on inside
  have hstop : ∀ {b : Link} {q}, c.graph.net.link b → b.kind.isLinear →
      ¬ hole.interior.contains b.target.vertex → ¬ c.Inside hole.interior b.source q := by
    intro b q hb hblin hbt hstep
    have hq := hc.threaded.joined_right_unique hstep.1 (Net.joined_of_link hb hblin)
    exact hbt (hq ▸ hstep.2)
  have hsource : l.source = m.source := by
    rcases ReflTransGen.total_of_right_unique hc.inside_right_unique hpath hpath' with hon | hon
    · rcases ReflTransGen.cases_head hon with heq | ⟨q, hq, _⟩
      · exact heq
      · exact absurd hq (hstop hl hlin ht)
    · rcases ReflTransGen.cases_head hon with heq | ⟨q, hq, _⟩
      · exact heq.symm
      · exact absurd hq (hstop ⟨x, hm⟩ hmlin hmt)
  have hlm : l = m := hc.threaded.out_unique hl ⟨x, hm⟩ hlin hmlin hsource
  have hex : e = x := hc.simple he (hlm ▸ hm)
  exact ⟨e', hex ▸ hx⟩

/-! ## Units of edges -/

lemma Wired.linear_of_target (h : c.Wired unit) {m : Link} (hl : c.graph.HasLink l) (hm : c.graph.HasLink m)
    (heq : m.target = l.source) : m.kind.isLinear ∧ m.kind = l.kind.carrier := by
  have hwire := h.threaded.target_wire hm
  rw [heq, h.threaded.source_wire hl] at hwire
  have hkind := some.inj hwire
  exact ⟨by rw [← hkind]; exact isLinear_carrier _, hkind.symm⟩

lemma traceUnit_eq_ok (h : c.Wired unit) (hl : c.graph.HasLink l) (htrace : c.traceUnit n l = .ok u) :
    unit l.source = u := by
  induction n generalizing l with
  | zero => cases htrace
  | succ n ih =>
    obtain ⟨k, _, hrest⟩ := bind_ok_iff.mp htrace
    split at hrest
    · next _ =>
      -- the wire starts here
      split at hrest
      · next _ hunit =>
        cases hrest
        obtain ⟨⟨_, ends⟩, hfind, rfl⟩ := map_eq_some_iff.mp hunit
        have hu := get?_iff_mem.mpr (mem_of_find?_eq_some hfind)
        have hv : ends.input = l.source.vertex := by simpa using find?_some hfind
        have hpin := (Net.pin_of_single (by rw [← hv]; exact h.signature_input hu) (h.threaded.source_wire hl)).1
        rw [hpin, ← hv]
        exact h.unit_input hu
      · cases hrest
    · obtain ⟨⟨e', _⟩, hbefore, htrace⟩ := bind_ok_iff.mp hrest
      obtain ⟨hget, htarget⟩ := linkIn_eq_ok h.valid hbefore
      have hlin := (h.linear_of_target hl ⟨e', hget⟩ htarget).1
      rw [← htarget, ← h.threaded.same_unit ⟨e', hget⟩ hlin]
      exact ih ⟨e', hget⟩ htrace

lemma edgeUnit_eq_ok (h : c.Wired unit) (he : c.graph.edges.get? e = some l) (hunit : c.edgeUnit e = .ok u) :
    unit l.source = u := by
  obtain ⟨_, hl', htrace⟩ := bind_ok_iff.mp hunit
  rw [link_eq_ok, he] at hl'
  cases hl'
  exact traceUnit_eq_ok h ⟨e, he⟩ htrace

lemma followOut_eq_ok (h : c.Wired unit) {p : Pin} (hfollow : c.followOut region n p = .ok e) :
    ∃ l, c.graph.edges.get? e = some l ∧ l.kind.isLinear ∧ ¬ region.contains l.target.vertex ∧
      ReflTransGen (c.Inside region) p l.source := by
  induction n generalizing p with
  | zero => cases hfollow
  | succ n ih =>
    obtain ⟨⟨e', l⟩, hout, hrest⟩ := bind_ok_iff.mp hfollow
    obtain ⟨hget, rfl, hlin⟩ := linkOut_eq_ok h.valid hout
    change (if region.contains l.target.vertex then c.followOut region n l.target else .ok e') = _ at hrest
    split at hrest
    · next hin =>
      obtain ⟨l', hget', hlin', hleave, hpath⟩ := ih hrest
      exact ⟨l', hget', hlin', hleave, hpath.head ⟨Net.joined_of_link ⟨e', hget⟩ hlin, hin⟩⟩
    · next hnot =>
      cases hrest
      exact ⟨l, hget, hlin, hnot, .refl⟩

/-! ## The hole of a vertex -/

lemma checkInterior_eq_ok (h : c.checkInterior v = .ok a) : ∃ k, c.graph.kind? v = some k ∧ k.isBoundary = false := by
  obtain ⟨k, hk, hif⟩ := bind_ok_iff.mp h
  split at hif
  · cases hif
  · next hb => exact ⟨k, kind_eq_ok.mp hk, by simpa using hb⟩

/-- The wires of different pins of a vertex belong to different units: else a wire would come back to the vertex. -/
lemma Wired.unit_ne_of_linear (h : c.Wired unit) {a b : Link} (ha : c.graph.HasLink a) (hb : c.graph.HasLink b)
    (halin : a.kind.isLinear) (hblin : b.kind.isLinear) (hv : a.target.vertex = b.target.vertex)
    (hne : a ≠ b) : unit a.source ≠ unit b.source := by
  intro hunit
  rw [h.threaded.same_unit ha halin, h.threaded.same_unit hb hblin] at hunit
  obtain ⟨_, _, _, hrank⟩ := h.exists_rank
  have hpin := h.pin_eq_of_rank hrank (h.threaded.target_wire ha) halin (h.threaded.target_wire hb) hblin hunit (by rw [hv])
  exact hne (h.threaded.in_unique ha hb hpin)

lemma Wired.unit_ne_of_target (h : c.Wired unit) {a b : Link} (ha : c.graph.HasLink a) (hb : c.graph.HasLink b)
    (hlin : a.kind.isLinear ∨ b.kind.isLinear) (hv : a.target.vertex = b.target.vertex)
    (hne : a ≠ b) : unit a.source ≠ unit b.source := by
  by_cases halin : a.kind.isLinear <;> by_cases hblin : b.kind.isLinear
  · exact h.unit_ne_of_linear ha hb halin hblin hv hne
  · have hapart := h.threaded.apart hb ha (eq_boolean hblin) halin hv.symm
    rw [h.threaded.same_unit ha halin]
    exact hapart.symm
  · rw [h.threaded.same_unit hb hblin]
    exact h.threaded.apart ha hb (eq_boolean halin) hblin hv
  · exact absurd hlin (not_or.mpr ⟨halin, hblin⟩)

lemma contains_ofList_single {w : Vertex} : contains (ofList [v]) w ↔ w = v := by
  show contains (add empty v) w ↔ _
  rw [contains_add, SortedMap.contains_iff]
  simp

/-- What leads on from a link into a vertex, for the slots of the hole of that vertex. -/
def HasExit (c : Circuit) (p : Edge × Link) (x : Option Edge) : Prop :=
  if p.2.kind.isLinear = true then ∃ e l, x = some e ∧ c.graph.linkOut p.2.target = .ok (e, l) else x = none

/-- The links into a vertex in the order of its slots. -/
def slotLinks (c : Circuit) (v : Vertex) : List (Edge × Link) :=
  sortedBy (fun p => [slotRank p.2.kind, p.2.target.index]) (c.graph.inLinks v)

lemma mem_slotLinks (hg : c.graph.Valid) : (e, l) ∈ c.slotLinks v ↔ c.graph.edges.get? e = some l ∧ l.target.vertex = v :=
  mem_sortedBy.trans (mem_inLinks hg)

lemma holeAt_eq_ok (h : c.holeAt v = .ok hole) :
    (∃ k, c.graph.kind? v = some k ∧ k.isBoundary = false) ∧ ∃ exits, Forall₂ c.HasExit (c.slotLinks v) exits ∧
      hole = { entries := (c.slotLinks v).map Prod.fst, exits, interior := .ofList [v],
               reads := ((c.graph.outLinks v).filter fun p => p.2.kind = .boolean).map Prod.fst } := by
  obtain ⟨_, hcheck, hrest⟩ := bind_ok_iff.mp h
  obtain ⟨exits, hexits, hrest⟩ := bind_ok_iff.mp hrest
  cases hrest
  refine ⟨checkInterior_eq_ok hcheck, exits, ?_, rfl⟩
  refine (except_mapM_eq_ok hexits).imp fun ⟨e, l⟩ x hx => ?_
  change (if l.kind.isLinear then c.graph.linkOut l.target >>= fun p => Except.ok (some p.1) else .ok none) = _ at hx
  unfold HasExit
  split at hx
  · next hlin =>
    obtain ⟨⟨e, l⟩, hout, hx⟩ := bind_ok_iff.mp hx
    cases hx
    rw [if_pos hlin]
    exact ⟨e, l, rfl, hout⟩
  · next hlin =>
    cases hx
    rw [if_neg hlin]

lemma HasExit.isSlot {x : Option Edge} (h : c.HasExit (e, l) x) (hc : c.Wired unit)
    (he : c.graph.edges.get? e = some l) : c.IsSlot (.ofList [l.target.vertex]) (e, x) l where
  get?_entry := he
  outside hs := hc.acyclic.no_loop ⟨e, he⟩ (contains_ofList_single.mp hs)
  inside := contains_ofList_single.mpr rfl
  read hx := by
    unfold HasExit at h
    split at h
    · obtain ⟨e', _, rfl, _⟩ := h
      cases hx
    · next hlin => exact eq_boolean hlin
  exit {e'} hx := by
    unfold HasExit at h
    split at h
    · next hlin =>
      obtain ⟨_, m, rfl, hout⟩ := h
      cases hx
      obtain ⟨hm, hms, hmlin⟩ := linkOut_eq_ok hc.valid hout
      refine ⟨hlin, m, hm, hmlin, fun ht => ?_, by rw [hms]⟩
      have hloop := hc.acyclic.no_loop ⟨_, hm⟩
      rw [hms] at hloop
      exact hloop (contains_ofList_single.mp ht).symm
    · rw [h] at hx
      cases hx

lemma holeAt_isHole (hc : c.Wired unit) (h : c.holeAt v = .ok hole) : c.IsHole unit hole := by
  obtain ⟨hkind, exits, hexits, rfl⟩ := holeAt_eq_ok h
  have hperm : (c.slotLinks v).Perm (c.graph.inLinks v) := perm_sortedBy _ _
  have hlinks : ∀ {e l}, (e, l) ∈ c.slotLinks v ↔ c.graph.edges.get? e = some l ∧ l.target.vertex = v :=
    mem_slotLinks hc.valid
  generalize c.slotLinks v = links at *
  have hlength := hexits.length_eq
  -- each slot comes from a link into the vertex
  have hzip : (links.map Prod.fst).zip exits = (links.zip exits).map fun p => (p.1.1, p.2) := by
    rw [zip_map_left]
    rfl
  have hmem : ∀ {e l x}, ((e, l), x) ∈ links.zip exits → (e, l) ∈ links ∧ c.HasExit (e, l) x := fun hp =>
    ⟨(of_mem_zip hp).1, (forall₂_iff_zip.mp hexits).2 hp⟩
  have hslot : ∀ {e l}, c.graph.edges.get? e = some l → l.target.vertex = v → ∃ x, ((e, l), x) ∈ links.zip exits := by
    intro e l he hv
    have hfst : (e, l) ∈ (links.zip exits).map Prod.fst := by
      rw [map_fst_zip hlength.le]
      exact hlinks.mpr ⟨he, hv⟩
    obtain ⟨⟨_, x⟩, hp, rfl⟩ := mem_map.mp hfst
    exact ⟨x, hp⟩
  constructor
  case interior =>
    intro w hw
    rw [contains_ofList_single.mp hw]
    exact hkind
  case length_eq => simpa using hlength
  case slot =>
    intro slot hslot
    rw [hzip] at hslot
    obtain ⟨⟨⟨e, l⟩, x⟩, hp, rfl⟩ := mem_map.mp hslot
    obtain ⟨hl, hx⟩ := hmem hp
    obtain ⟨he, rfl⟩ := hlinks.mp hl
    exact ⟨l, hx.isSlot hc he⟩
  case enters =>
    intro e l he hlin _ hin
    obtain ⟨x, hx⟩ := hslot he (contains_ofList_single.mp hin)
    have hexit := (hmem hx).2
    unfold HasExit at hexit
    rw [if_pos hlin] at hexit
    obtain ⟨e', _, rfl, _⟩ := hexit
    exact ⟨e', by rw [hzip]; exact mem_map_of_mem hx⟩
  case reads_enter =>
    intro e l he _ _ hin
    obtain ⟨x, hx⟩ := hslot he (contains_ofList_single.mp hin)
    exact ⟨(e, x), by rw [hzip]; exact mem_map_of_mem hx, l, he, rfl⟩
  case reads =>
    intro e
    rw [List.mem_map]
    constructor
    · rintro ⟨⟨e, l⟩, hp, rfl⟩
      obtain ⟨hl, hk⟩ := mem_filter.mp hp
      obtain ⟨he, rfl⟩ := (mem_outLinks hc.valid).mp hl
      refine ⟨l, he, of_decide_eq_true hk, contains_ofList_single.mpr rfl, fun ht => ?_⟩
      exact hc.acyclic.no_loop ⟨e, he⟩ (contains_ofList_single.mp ht).symm
    · rintro ⟨l, he, hk, hs, _⟩
      exact ⟨(e, l), mem_filter.mpr ⟨(mem_outLinks hc.valid).mpr ⟨he, contains_ofList_single.mp hs⟩, decide_eq_true hk⟩, rfl⟩
  case reads_nodup => exact (nodup_outLinks hc.valid v).sublist (filter_sublist.map _)
  case distinct =>
    rw [hzip, pairwise_map]
    have hne : (links.zip exits).Pairwise fun a b => a.1.1 ≠ b.1.1 := by
      have hnodup : ((links.zip exits).map fun p => p.1.1).Nodup := by
        have hmap : (links.zip exits).map (fun p => p.1.1) = links.map Prod.fst := by
          have hfst := congrArg (map Prod.fst) (map_fst_zip hlength.le)
          rwa [List.map_map] at hfst
        rw [hmap, (hperm.map Prod.fst).nodup_iff]
        exact nodup_inLinks hc.valid v
      exact pairwise_map.mp hnodup
    refine hne.imp_of_mem ?_
    rintro ⟨⟨e, l⟩, x⟩ ⟨⟨e', _⟩, _⟩ hp hp' hee _ _ hl1 hl1' hsome
    obtain ⟨hl, hx⟩ := hmem hp
    obtain ⟨hl', hx'⟩ := hmem hp'
    obtain ⟨he, hv⟩ := hlinks.mp hl
    obtain ⟨he', hv'⟩ := hlinks.mp hl'
    cases mem_unique he hl1
    cases mem_unique he' hl1'
    refine hc.unit_ne_of_target ⟨e, he⟩ ⟨e', he'⟩ ?_ (hv.trans hv'.symm) ?_
    · -- a slot with an exit is linear
      rcases hsome with hsome | hsome
      · obtain ⟨y, rfl⟩ := isSome_iff_exists.mp hsome
        exact .inl ((hx.isSlot hc he).exit rfl).1
      · obtain ⟨y, rfl⟩ := isSome_iff_exists.mp hsome
        exact .inr ((hx'.isSlot hc he').exit rfl).1
    · rintro rfl
      exact hee (hc.simple he he')

/-! ## The hole of a region -/

/-- **What is known of the crossings** after some of the links into the region. -/
structure Crossed (c : Circuit) (unit : Pin → UnitId) (region : SortedSet Vertex) (done : List (Edge × Link))
    (crossings : SortedMap UnitId Crossing) : Prop where
  wire : ∀ {u cr e x}, crossings.get? u = some cr → cr.wire = some (e, x) →
    ∃ l, c.IsSlot region (e, some x) l ∧ unit l.source = u
  reads : ∀ {u cr e}, crossings.get? u = some cr → e ∈ cr.reads → ∃ l, c.IsSlot region (e, none) l ∧ unit l.source = u
  complete : ∀ {e l}, (e, l) ∈ done → ¬ region.contains l.source.vertex = true →
    ∃ cr, crossings.get? (unit l.source) = some cr ∧ (l.kind.isLinear = true → ∃ x, cr.wire = some (e, x)) ∧
      (l.kind = .boolean → e ∈ cr.reads)

lemma crossed_nil : c.Crossed unit region [] .empty where
  wire hcr := by cases hcr
  reads hcr := by cases hcr
  complete hmem := by cases hmem

lemma Crossed.insert {crossing : Crossing} (h : c.Crossed unit region done crossings)
    (hwire : ∀ {e x}, crossing.wire = some (e, x) → ∃ l, c.IsSlot region (e, some x) l ∧ unit l.source = u)
    (hreads : ∀ {e}, e ∈ crossing.reads → ∃ l, c.IsSlot region (e, none) l ∧ unit l.source = u)
    (hkeeps : ∀ {cr}, crossings.get? u = some cr →
      (∀ {p}, cr.wire = some p → crossing.wire = some p) ∧ cr.reads ⊆ crossing.reads)
    (hunit : unit l.source = u) (hlin : l.kind.isLinear → ∃ x, crossing.wire = some (e, x))
    (hread : l.kind = .boolean → e ∈ crossing.reads) :
    c.Crossed unit region (done ++ [(e, l)]) (crossings.insert u crossing) where
  wire {u' cr e' x} hcr hx := by
    rw [get?_insert] at hcr
    split at hcr
    · next heq =>
      cases hcr
      exact heq ▸ hwire hx
    · exact h.wire hcr hx
  reads {u' cr e'} hcr hx := by
    rw [get?_insert] at hcr
    split at hcr
    · next heq =>
      cases hcr
      exact heq ▸ hreads hx
    · exact h.reads hcr hx
  complete {e' l'} hmem hout := by
    rcases mem_append.mp hmem with hmem | hmem
    · obtain ⟨cr, hcr, hx, hr⟩ := h.complete hmem hout
      rw [get?_insert]
      split
      · next heq =>
        obtain ⟨hkeepx, hkeepr⟩ := hkeeps (heq ▸ hcr)
        exact ⟨crossing, rfl, fun hl => (hx hl).imp fun x hx => hkeepx hx, fun hk => hkeepr (hr hk)⟩
      · exact ⟨cr, hcr, hx, hr⟩
    · cases mem_singleton.mp hmem
      exact ⟨crossing, by rw [get?_insert, if_pos hunit], hlin, hread⟩

lemma Crossed.step {crossings' : SortedMap UnitId Crossing}
    (h : c.Crossed unit region done crossings) (hc : c.Wired unit) (he : c.graph.edges.get? e = some l)
    (hin : region.contains l.target.vertex) (hadd : c.addCrossing region crossings (e, l) = .ok crossings') :
    c.Crossed unit region (done ++ [(e, l)]) crossings' := by
  change (if region.contains l.source.vertex then Except.ok crossings else c.edgeUnit e >>= fun u => _) = _ at hadd
  split at hadd
  · next hs =>
    cases hadd
    refine ⟨h.wire, h.reads, fun {e' l'} hmem hout => ?_⟩
    rcases mem_append.mp hmem with hmem | hmem
    · exact h.complete hmem hout
    · cases mem_singleton.mp hmem
      exact absurd hs hout
  · next hout =>
    obtain ⟨u, hu, hadd⟩ := bind_ok_iff.mp hadd
    replace hu := edgeUnit_eq_ok hc he hu
    -- what was known of this unit
    have hwire : ∀ {e x}, ((crossings.get? u).getD {}).wire = some (e, x) →
        ∃ l, c.IsSlot region (e, some x) l ∧ unit l.source = u := by
      intro e x hx
      cases hcr : crossings.get? u with
      | none => rw [hcr] at hx; cases hx
      | some cr => rw [hcr] at hx; exact h.wire hcr hx
    have hreads : ∀ {e}, e ∈ ((crossings.get? u).getD {}).reads → ∃ l, c.IsSlot region (e, none) l ∧ unit l.source = u := by
      intro e hx
      cases hcr : crossings.get? u with
      | none => rw [hcr] at hx; cases hx
      | some cr => rw [hcr] at hx; exact h.reads hcr hx
    have hold : ∀ {cr}, crossings.get? u = some cr → (crossings.get? u).getD {} = cr := fun hcr => by rw [hcr]; rfl
    split at hadd
    · next hlin =>
      cases hadd
      have hlin' : ¬ l.kind.isLinear := by simpa using hlin
      refine h.insert hwire (fun {e'} hmem => ?_) (fun hcr => (hold hcr).symm ▸ ⟨id, subset_append_left _ _⟩) hu
        (fun hl => absurd hl hlin') fun _ => mem_append_right _ mem_cons_self
      rcases mem_append.mp hmem with hmem | hmem
      · exact hreads hmem
      · cases mem_singleton.mp hmem
        exact ⟨l, ⟨he, hout, hin, fun _ => eq_boolean hlin', by rintro _ ⟨⟩⟩, hu⟩
    · next hlin =>
      have hlin' : l.kind.isLinear := by simpa using hlin
      dsimp only at hadd
      split at hadd
      · cases hadd
      · next hnone =>
        obtain ⟨x, hx, hadd⟩ := bind_ok_iff.mp hadd
        cases hadd
        obtain ⟨m, hm, hmlin, hleave, hpath⟩ := followOut_eq_ok hc hx
        refine h.insert (fun {e' x'} hx' => ?_) hreads (fun {cr} hcr => ⟨fun {p} hx' => ?_, ?_⟩) hu (fun _ => ⟨x, rfl⟩)
          fun hk => absurd hk (ne_boolean hlin')
        · cases hx'
          exact ⟨l, ⟨he, hout, hin, by rintro ⟨⟩, fun {e'} hx' => by cases hx'; exact ⟨hlin', m, hm, hmlin, hleave, hpath⟩⟩, hu⟩
        · rw [hold hcr, hx'] at hnone
          exact absurd rfl hnone
        · rw [hold hcr]
          exact Subset.refl _

lemma crossingSlot_eq_ok {slot : Option (Edge × Option Edge)} (h : c.crossingSlot u cr = .ok slot) :
    (∀ {e x}, cr.wire = some (e, x) → slot = some (e, some x)) ∧
      (∀ {s}, cr.wire = none → slot = some s → s.1 ∈ cr.reads ∧ s.2 = none) ∧
      ∀ {e}, e ∈ cr.reads → ∃ s l m, slot = some s ∧ c.graph.edges.get? s.1 = some l ∧
        c.graph.edges.get? e = some m ∧ m.source = l.source := by
  -- what the checks say once the entry of the slot is known
  have hchecks : ∀ {entry : Edge} {x : Option Edge}, (c.graph.link entry >>= fun l => do
      cr.reads.forM fun read => do
        if (← c.graph.link read).source ≠ l.source then Except.error (.invalid (.regionReadTwice u))
      return some (entry, x)) = .ok slot →
      slot = some (entry, x) ∧ ∀ {e}, e ∈ cr.reads → ∃ s l m, slot = some s ∧ c.graph.edges.get? s.1 = some l ∧
        c.graph.edges.get? e = some m ∧ m.source = l.source := by
    intro entry x h
    obtain ⟨l, hl, h⟩ := bind_ok_iff.mp h
    obtain ⟨_, hreads, h⟩ := bind_ok_iff.mp h
    cases h
    refine ⟨rfl, fun {e} he => ?_⟩
    obtain ⟨m, hm, hsame⟩ := bind_ok_iff.mp (except_forM_eq_ok.mp hreads e he)
    split at hsame
    · cases hsame
    · next heq => exact ⟨_, l, m, rfl, link_eq_ok.mp hl, link_eq_ok.mp hm, not_not.mp heq⟩
  unfold crossingSlot at h
  cases hwire : cr.wire with
  | some p =>
    rw [hwire] at h
    obtain ⟨rfl, hall⟩ := hchecks h
    exact ⟨fun hx => (by cases hx; rfl), fun hnone => (by cases hnone), hall⟩
  | none =>
    rw [hwire] at h
    cases hreads : cr.reads with
    | nil =>
      rw [hreads] at h
      cases h
      exact ⟨fun hx => (by cases hx), fun _ hs => (by cases hs), fun he => (by cases he)⟩
    | cons e rest =>
      rw [hreads] at h hchecks
      obtain ⟨rfl, hall⟩ := hchecks h
      exact ⟨fun hx => (by cases hx), fun _ hs => (by cases hs; exact ⟨mem_cons_self, rfl⟩), hall⟩

include h in
lemma holeOf_eq_ok : (∀ v, region.contains v → ∃ k, c.graph.kind? v = some k ∧ k.isBoundary = false) ∧
      ∃ crossings slots, (region.toList.flatMap c.graph.inLinks).foldlM (c.addCrossing region) .empty = .ok crossings ∧
        crossings.entries.filterMapM (fun p => c.crossingSlot p.1 p.2) = .ok slots ∧
        hole = { entries := slots.map Prod.fst, exits := slots.map Prod.snd, interior := region,
                 reads := region.toList.flatMap (c.readsLeaving region) } := by
  obtain ⟨_, hcheck, h⟩ := bind_ok_iff.mp h
  obtain ⟨_, _, h⟩ := bind_ok_iff.mp h
  obtain ⟨crossings, hcrossings, h⟩ := bind_ok_iff.mp h
  obtain ⟨slots, hslots, h⟩ := bind_ok_iff.mp h
  cases h
  refine ⟨fun v hv => ?_, crossings, slots, hcrossings, hslots, rfl⟩
  exact checkInterior_eq_ok (except_forM_eq_ok.mp hcheck v (mem_toList.mpr hv))

include h in
lemma holeOf_interior : hole.interior = region := by
  obtain ⟨_, _, _, _, _, rfl⟩ := holeOf_eq_ok h
  rfl

include hg h in
lemma holeOf_convex : Net.Convex c.Linked fun v => region.contains v := by
  obtain ⟨_, _, h⟩ := bind_ok_iff.mp h
  obtain ⟨_, hcheck, _⟩ := bind_ok_iff.mp h
  exact checkConvex_eq_ok hg hcheck

lemma mem_readsLeaving (hg : c.graph.Valid) : e ∈ c.readsLeaving region v ↔ ∃ l, c.graph.edges.get? e = some l ∧
    l.kind = .boolean ∧ l.source.vertex = v ∧ ¬ region.contains l.target.vertex := by
  unfold readsLeaving
  rw [List.mem_map]
  constructor
  · rintro ⟨⟨e, l⟩, hp, rfl⟩
    obtain ⟨hl, hk⟩ := mem_filter.mp hp
    obtain ⟨he, hs⟩ := (mem_outLinks hg).mp hl
    rw [Bool.and_eq_true, decide_eq_true_eq, Bool.not_eq_true'] at hk
    exact ⟨l, he, hk.1, hs, by rw [hk.2]; simp⟩
  · rintro ⟨l, he, hk, hs, ht⟩
    refine ⟨(e, l), mem_filter.mpr ⟨(mem_outLinks hg).mpr ⟨he, hs⟩, ?_⟩, rfl⟩
    rw [Bool.and_eq_true, decide_eq_true_eq, Bool.not_eq_true']
    exact ⟨hk, by simpa using ht⟩

lemma nodup_readsLeaving (hg : c.graph.Valid) : (region.toList.flatMap (c.readsLeaving region)).Nodup := by
  rw [nodup_flatMap]
  constructor
  · intro v _
    exact (nodup_outLinks hg v).sublist (filter_sublist.map _)
  · refine (nodup_toList region).imp fun {v w} hne e hv hw => ?_
    obtain ⟨l, hl, _, hlv, _⟩ := (mem_readsLeaving hg).mp hv
    obtain ⟨m, hm, _, hmw, _⟩ := (mem_readsLeaving hg).mp hw
    cases mem_unique hl hm
    exact hne (hlv.symm.trans hmw)

lemma mem_linksInto (hg : c.graph.Valid) : (e, l) ∈ region.toList.flatMap c.graph.inLinks ↔
    c.graph.edges.get? e = some l ∧ region.contains l.target.vertex := by
  rw [mem_flatMap]
  constructor
  · rintro ⟨v, hv, hl⟩
    obtain ⟨he, rfl⟩ := (mem_inLinks hg).mp hl
    exact ⟨he, mem_toList.mp hv⟩
  · rintro ⟨he, hv⟩
    exact ⟨_, mem_toList.mpr hv, (mem_inLinks hg).mpr ⟨he, rfl⟩⟩

lemma Crossed.isSlot (h : c.Crossed unit region done crossings) (hcr : crossings.get? u = some cr)
    (hslot : c.crossingSlot u cr = .ok (some slot)) : ∃ l, c.IsSlot region slot l ∧ unit l.source = u := by
  obtain ⟨hwire, hread, _⟩ := crossingSlot_eq_ok hslot
  cases hw : cr.wire with
  | some p =>
    cases hwire hw
    exact h.wire hcr hw
  | none =>
    obtain ⟨hr, hx⟩ := hread hw rfl
    obtain ⟨e, x⟩ := slot
    cases hx
    exact h.reads hcr hr

include hc h in
lemma holeOf_slots : ∃ crossings, c.Crossed unit region (region.toList.flatMap c.graph.inLinks) crossings ∧
      (∀ {u cr}, crossings.get? u = some cr → ∃ slot, c.crossingSlot u cr = .ok slot) ∧
      hole.entries.zip hole.exits = crossings.entries.filterMap fun p => (c.crossingSlot p.1 p.2).toOption.join := by
  obtain ⟨_, crossings, _, hcrossings, hslots, rfl⟩ := holeOf_eq_ok h
  have hcrossed := except_foldlM_of_step (c.Crossed unit region)
      (fun done p b b' hp hb hadd => hb.step hc ((mem_linksInto hc.valid).mp hp).1 ((mem_linksInto hc.valid).mp hp).2 hadd)
      crossed_nil hcrossings
  obtain ⟨hok, hfilter⟩ := except_filterMapM_eq_ok hslots
  refine ⟨crossings, hcrossed, fun hcr => hok _ (get?_iff_mem.mp hcr), ?_⟩
  rw [← unzip_fst, ← unzip_snd, zip_unzip, hfilter]

include hc h in
lemma holeOf_ordered : (hole.entries.zip hole.exits).Pairwise fun a b => ∀ l m, c.graph.edges.get? a.1 = some l →
      c.graph.edges.get? b.1 = some m → compare (unit l.source) (unit m.source) = .lt := by
  obtain ⟨crossings, hcrossed, hok, hslots⟩ := holeOf_slots hc h
  have hunit : ∀ {p : UnitId × Crossing} {s l}, p ∈ crossings.entries →
      (c.crossingSlot p.1 p.2).toOption.join = some s → c.graph.edges.get? s.1 = some l → unit l.source = p.1 := by
    intro p s l hp hs hl
    have hcr := get?_iff_mem.mpr hp
    obtain ⟨_, hslot⟩ := hok hcr
    rw [hslot] at hs
    obtain ⟨m, hm, hu⟩ := hcrossed.isSlot hcr (hslot.trans (congrArg _ hs))
    cases hm.get?_entry.symm.trans hl
    exact hu
  rw [hslots, pairwise_filterMap]
  refine crossings.ordered.imp_of_mem fun {p q} hp hq hlt s hs s' hs' l m hl hm => ?_
  rw [hunit hp hs hl, hunit hq hs' hm]
  exact hlt

include hc h in
lemma holeOf_isHole : c.IsHole unit hole := by
  have hordered := holeOf_ordered hc h
  obtain ⟨crossings, hcrossed, hok, hslots⟩ := holeOf_slots hc h
  obtain ⟨hkind, _, _, _, _, rfl⟩ := holeOf_eq_ok h
  have hmem : ∀ {u cr s}, crossings.get? u = some cr → c.crossingSlot u cr = .ok (some s) →
      s ∈ crossings.entries.filterMap fun p => (c.crossingSlot p.1 p.2).toOption.join := by
    intro u cr s hcr hs
    refine mem_filterMap.mpr ⟨_, get?_iff_mem.mp hcr, ?_⟩
    rw [hs]
    rfl
  constructor
  case interior => exact fun {v} hv => hkind v hv
  case length_eq => simp
  case slot =>
    intro slot hslot
    rw [hslots] at hslot
    obtain ⟨⟨u, cr⟩, hmem, hs⟩ := mem_filterMap.mp hslot
    have hcr := get?_iff_mem.mpr hmem
    obtain ⟨y, hy⟩ := hok hcr
    rw [hy] at hs
    obtain ⟨l, hl, _⟩ := hcrossed.isSlot hcr (hy.trans (congrArg _ hs))
    exact ⟨l, hl⟩
  case enters =>
    intro e l he hlin hout hin
    obtain ⟨cr, hcr, hwire, _⟩ := hcrossed.complete ((mem_linksInto hc.valid).mpr ⟨he, hin⟩) hout
    obtain ⟨x, hx⟩ := hwire hlin
    obtain ⟨y, hy⟩ := hok hcr
    cases (crossingSlot_eq_ok hy).1 hx
    rw [hslots]
    exact ⟨x, hmem hcr hy⟩
  case reads_enter =>
    intro e l he hk hout hin
    obtain ⟨cr, hcr, _, hread⟩ := hcrossed.complete ((mem_linksInto hc.valid).mpr ⟨he, hin⟩) hout
    obtain ⟨y, hy⟩ := hok hcr
    obtain ⟨s, m, _, rfl, hm, hl', hsource⟩ := (crossingSlot_eq_ok hy).2.2 (hread hk)
    cases he.symm.trans hl'
    rw [hslots]
    exact ⟨s, hmem hcr hy, m, hm, hsource.symm⟩
  case reads =>
    intro e
    rw [mem_flatMap]
    constructor
    · rintro ⟨v, hv, he⟩
      obtain ⟨l, hl, hk, rfl, ht⟩ := (mem_readsLeaving hc.valid).mp he
      exact ⟨l, hl, hk, mem_toList.mp hv, ht⟩
    · rintro ⟨l, hl, hk, hs, ht⟩
      exact ⟨_, mem_toList.mpr hs, (mem_readsLeaving hc.valid).mpr ⟨l, hl, hk, rfl, ht⟩⟩
  case reads_nodup => exact nodup_readsLeaving hc.valid
  case distinct =>
    -- the units of slots go upwards
    refine hordered.imp fun hlt l m hl hm _ heq => ?_
    have hself := hlt l m hl hm
    rw [heq, Std.ReflOrd.compare_self] at hself
    cases hself

lemma isHole_of_hole (hc : c.WellFormed) (hhole : (∃ region, c.holeOf region = .ok hole) ∨ ∃ v, c.holeAt v = .ok hole) :
    c.IsHole (WellFormed.unitAt c) hole := by
  rcases hhole with ⟨region, hhole⟩ | ⟨v, hhole⟩
  · exact holeOf_isHole hc.wired hhole
  · exact holeAt_isHole hc.wired hhole

end Circuit

end Wireloom
