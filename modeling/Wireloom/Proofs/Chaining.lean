import Wireloom.Proofs.Composition

/-!
# `Circuit.Chained` — what appending makes of two circuits

A circuit that is appended is copied in, and then its units are tied to those of the host one after the other. `Chained`
says what has become of the vertices and links of both circuits.
-/

namespace Wireloom

open SortedMap Option

/-! ## Opgroups -/

namespace OpgroupPolicy

variable {policy : OpgroupPolicy} {host guest : SortedMap String Signature}

lemma check_merge_iff : merge.check host guest = .ok () ↔ host.Agree guest := by
  rw [check]
  constructor
  · intro hcheck name s s' hs hs'
    split at hcheck
    · cases hcheck
    · next hnone =>
      have hagree := List.find?_eq_none.mp hnone (name, s') (get?_iff_mem.mp hs')
      rw [hs] at hagree
      simpa using hagree
  · intro hagree
    have hnone : (guest.entries.find? fun p => (host.get? p.1).any fun s => s ≠ p.2) = none := by
      refine List.find?_eq_none.mpr fun p hp hdiffer => ?_
      obtain ⟨s, hs, hne⟩ := (any_eq_true _ _).mp hdiffer
      exact of_decide_eq_true hne (hagree hs (get?_iff_mem.mpr hp))
    rw [hnone]

/-- **The policy does not allow the opgroups of the circuit that comes in.** -/
def Refuses (host guest : SortedMap String Signature) : OpgroupPolicy → Prop
  | preserve => ∃ name, name ∈ host.keys ∧ name ∈ guest.keys
  | disallow => ∃ name, name ∈ guest.keys
  | merge => ∃ name s s', host.get? name = some s ∧ guest.get? name = some s' ∧ s ≠ s'
  | remove => False

lemma check_iff : policy.check host guest = .ok () ↔ ¬ policy.Refuses host guest := by
  cases policy with
  | preserve =>
    have hany : guest.keys.any host.contains ↔ preserve.Refuses host guest := by
      rw [List.any_eq_true]
      exact exists_congr fun name => and_comm.trans (and_congr_left' (contains_iff.trans mem_keys_iff.symm))
    rw [check, ← hany]
    split <;> simp [*]
  | disallow =>
    have hempty : guest.isEmpty ↔ ¬ disallow.Refuses host guest := by
      unfold isEmpty Refuses keys
      rw [List.isEmpty_iff, ← List.map_eq_nil_iff, List.eq_nil_iff_forall_not_mem, not_exists]
    rw [check, ← hempty]
    split <;> simp [*]
  | merge =>
    rw [check_merge_iff]
    unfold Refuses Agree
    push Not
    rfl
  | remove => exact ⟨fun _ => id, fun _ => rfl⟩

/-- **Where names are kept, both circuits note the same signature for a common opgroup.** -/
theorem agree_of_check (hkeep : policy.keepsNames) (hcheck : policy.check host guest = .ok ()) : host.Agree guest := by
  intro name s s' hs hs'
  by_contra hne
  refine check_iff.mp hcheck ?_
  cases policy with
  | preserve => exact ⟨name, mem_keys_iff.mpr ⟨s, hs⟩, mem_keys_iff.mpr ⟨s', hs'⟩⟩
  | merge => exact ⟨name, s, s', hs, hs', hne⟩
  | disallow => cases hkeep
  | remove => cases hkeep

end OpgroupPolicy

namespace Circuit

open Wireloom.Graph SortedMap SlotStore

variable {c c' guest d d' : Circuit} {unit unitG unitD : Pin → UnitId} {ι : Vertex → Vertex} {u : UnitId}
  {host next ends : Ends} {v w : Vertex} {l m : Link} {n : Node} {done : SortedMap UnitId Ends} {ρ : Renaming}
  {g : Graph} {changed : Bool} {copies : Copies} {renamed : Circuit}

/-! ## Chained circuits -/

/-- The ends of a unit if the second wire goes on where the first ends. -/
def joinEnds (ι : Vertex → Vertex) : Option Ends → Option Ends → Option Ends
  | some host, some next => some ⟨host.input, ι next.output⟩
  | some host, none => some host
  | none, next => next.map (Ends.map ι)

/-- A unit of both circuits ended at the vertex of the host. -/
def WasEnd (c guest : Circuit) (v : Vertex) : Prop :=
  ∃ u host next, c.boundary.get? u = some host ∧ guest.boundary.get? u = some next ∧ host.output = v

/-- A unit of both circuits started at the vertex of the guest. -/
def WasStart (c guest : Circuit) (v : Vertex) : Prop :=
  ∃ u host next, c.boundary.get? u = some host ∧ guest.boundary.get? u = some next ∧ next.input = v

/-- A unit of both circuits started at the vertex of the guest, and was not created there. -/
def Spliced (c guest : Circuit) (v : Vertex) : Prop := c.WasStart guest v ∧ guest.graph.kind? v ≠ some .create

/-- **`d` is `c` followed by `guest`**, whose vertices have been moved by `ι`. -/
structure Chained (ι : Vertex → Vertex) (c guest d : Circuit) : Prop where
  fresh : ∀ {v}, guest.graph.Live v → ¬ c.graph.Live (ι v)
  injective : ∀ {v w}, guest.graph.Live v → guest.graph.Live w → ι v = ι w → v = w
  host_node : ∀ {v n}, c.graph.vertices.get? v = some n → ¬ c.WasEnd guest v → d.graph.vertices.get? v = some n
  guest_node : ∀ {v n}, guest.graph.vertices.get? v = some n → ¬ c.Spliced guest v →
    ∃ n', d.graph.vertices.get? (ι v) = some n' ∧ n'.opgroup = n.opgroup ∧
      (¬ c.WasStart guest v → n'.kind = n.kind) ∧ (c.WasStart guest v → n'.kind = .op .reset)
  cases : ∀ {w}, d.graph.Live w → (c.graph.Live w ∧ ¬ c.WasEnd guest w) ∨
    ∃ v, guest.graph.Live v ∧ ¬ c.Spliced guest v ∧ ι v = w
  host_link : ∀ {l}, c.graph.HasLink l → ¬ c.WasEnd guest l.target.vertex → d.graph.HasLink l
  guest_link : ∀ {l}, guest.graph.HasLink l → ¬ c.Spliced guest l.source.vertex → d.graph.HasLink (l.map ι)
  joined_link : ∀ {u host next l m}, c.boundary.get? u = some host → guest.boundary.get? u = some next →
    guest.graph.kind? next.input ≠ some .create → c.graph.HasLink l → l.target.vertex = host.output →
    guest.graph.HasLink m → m.source.vertex = next.input → d.graph.HasLink ⟨l.source, m.target.map ι, m.kind⟩
  reset_link : ∀ {u host next l}, c.boundary.get? u = some host → guest.boundary.get? u = some next →
    guest.graph.kind? next.input = some .create → c.graph.HasLink l → l.target.vertex = host.output →
    d.graph.HasLink ⟨l.source, ⟨ι next.input, 0⟩, l.kind⟩
  boundary : ∀ u, d.boundary.get? u = joinEnds ι (c.boundary.get? u) (guest.boundary.get? u)
  made : c.graph.Sequenced → d.graph.bySequence.map Prod.fst =
    (c.graph.bySequence.map Prod.fst ++ (guest.graph.bySequence.map Prod.fst).map ι).filter fun w =>
      d.graph.vertices.contains w

lemma Wired.kind_of_output (h : c.Wired unit) (hu : c.boundary.get? u = some ends) (hl : c.graph.HasLink l)
    (ht : l.target.vertex = ends.output) : l.kind = u.kind.wire :=
  (Net.pin_of_single (ht ▸ h.signature_output hu) (h.threaded.target_wire hl)).2

lemma Wired.source_input (h : c.Wired unit) (hu : c.boundary.get? u = some ends) (hl : c.graph.HasLink l)
    (hs : l.source.vertex = ends.input) : l.source = ⟨ends.input, 0⟩ ∧ l.kind.carrier = u.kind.wire := by
  obtain ⟨hpin, hkind⟩ := Net.pin_of_single (hs ▸ h.signature_input hu) (h.threaded.source_wire hl)
  exact ⟨hs ▸ hpin, hkind⟩

/-! ## Tying one more unit -/

/-- The guest with some of its units. -/
def withUnits (guest : Circuit) (units : SortedMap UnitId Ends) : Circuit := { guest with boundary := units }

lemma meets_insert {u' : UnitId} {host' next' : Ends} (hnew : done.get? u = none) :
    (c.boundary.get? u' = some host' ∧ (guest.withUnits (done.insert u next)).boundary.get? u' = some next') ↔
      (u' = u ∧ c.boundary.get? u = some host' ∧ next' = next) ∨
        (c.boundary.get? u' = some host' ∧ (guest.withUnits done).boundary.get? u' = some next') := by
  unfold withUnits
  rw [get?_insert]
  by_cases hu : u' = u
  · subst hu
    simp [hnew, eq_comm]
  · simp [hu]

lemma wasEnd_insert (hnew : done.get? u = none) (hhost : c.boundary.get? u = some host) :
    c.WasEnd (guest.withUnits (done.insert u next)) v ↔ v = host.output ∨ c.WasEnd (guest.withUnits done) v := by
  unfold WasEnd
  simp only [← and_assoc, meets_insert hnew]
  constructor
  · rintro ⟨u', host', next', ⟨⟨rfl, hu'⟩, rfl⟩ | hmeets, rfl⟩
    · rw [hhost] at hu'
      cases hu'
      exact .inl rfl
    · exact .inr ⟨u', host', next', hmeets, rfl⟩
  · rintro (rfl | ⟨u', host', next', hmeets, rfl⟩)
    · exact ⟨u, host, next, .inl ⟨⟨rfl, hhost⟩, rfl⟩, rfl⟩
    · exact ⟨u', host', next', .inr hmeets, rfl⟩

lemma wasStart_insert (hnew : done.get? u = none) (hhost : c.boundary.get? u = some host) :
    c.WasStart (guest.withUnits (done.insert u next)) v ↔ v = next.input ∨ c.WasStart (guest.withUnits done) v := by
  unfold WasStart
  simp only [← and_assoc, meets_insert hnew]
  constructor
  · rintro ⟨u', host', next', ⟨⟨rfl, _⟩, rfl⟩ | hmeets, rfl⟩
    · exact .inl rfl
    · exact .inr ⟨u', host', next', hmeets, rfl⟩
  · rintro (rfl | ⟨u', host', next', hmeets, rfl⟩)
    · exact ⟨u, host, next, .inl ⟨⟨rfl, hhost⟩, rfl⟩, rfl⟩
    · exact ⟨u', host', next', .inr hmeets, rfl⟩

lemma spliced_insert (hnew : done.get? u = none) (hhost : c.boundary.get? u = some host) :
    c.Spliced (guest.withUnits (done.insert u next)) v ↔
      (v = next.input ∧ guest.graph.kind? v ≠ some .create) ∨ c.Spliced (guest.withUnits done) v := by
  unfold Spliced
  rw [wasStart_insert hnew hhost, or_and_right]
  exact Iff.rfl

lemma Chained.register (hch : Chained ι c (guest.withUnits done) d) (hnew : done.get? u = none)
    (hhost : c.boundary.get? u = none) :
    Chained ι c (guest.withUnits (done.insert u next)) (d.withEnds u (next.map ι)) := by
  -- the new unit is none of the host's, so both have the same units in common as before
  have hmeets : ∀ {u' host' next'},
      (c.boundary.get? u' = some host' ∧ (guest.withUnits (done.insert u next)).boundary.get? u' = some next') ↔
        c.boundary.get? u' = some host' ∧ (guest.withUnits done).boundary.get? u' = some next' := by
    intro u' host' next'
    rw [meets_insert hnew, hhost]
    simp
  have hend : ∀ {v}, c.WasEnd (guest.withUnits (done.insert u next)) v ↔ c.WasEnd (guest.withUnits done) v := by
    simp only [WasEnd, ← and_assoc, hmeets, implies_true]
  have hstart : ∀ {v}, c.WasStart (guest.withUnits (done.insert u next)) v ↔ c.WasStart (guest.withUnits done) v := by
    simp only [WasStart, ← and_assoc, hmeets, implies_true]
  have hspliced : ∀ {v}, c.Spliced (guest.withUnits (done.insert u next)) v ↔ c.Spliced (guest.withUnits done) v :=
    and_congr_left fun _ => hstart
  exact
    { fresh := hch.fresh, injective := hch.injective, made := hch.made
      host_node := fun hn hv => hch.host_node hn (mt hend.mpr hv)
      guest_node := fun hn hv => by
        obtain ⟨n', hn', hog, hkind, hreset⟩ := hch.guest_node hn (mt hspliced.mpr hv)
        exact ⟨n', hn', hog, fun hv => hkind (mt hstart.mpr hv), fun hv => hreset (hstart.mp hv)⟩
      cases := fun hw => by
        rcases hch.cases hw with ⟨hlive, hv⟩ | ⟨v, hlive, hv, rfl⟩
        · exact .inl ⟨hlive, mt hend.mp hv⟩
        · exact .inr ⟨v, hlive, mt hspliced.mp hv, rfl⟩
      host_link := fun hl hv => hch.host_link hl (mt hend.mpr hv)
      guest_link := fun hl hv => hch.guest_link hl (mt hspliced.mpr hv)
      joined_link := fun hc hg => hch.joined_link hc (hmeets.mp ⟨hc, hg⟩).2
      reset_link := fun hc hg => hch.reset_link hc (hmeets.mp ⟨hc, hg⟩).2
      boundary := fun u' => by
        show (d.boundary.insert u (next.map ι)).get? u' = joinEnds ι _ ((done.insert u next).get? u')
        rw [get?_insert, get?_insert]
        by_cases hu : u' = u
        · rw [if_pos hu, if_pos hu, hu, hhost]
          rfl
        · rw [if_neg hu, if_neg hu]
          exact hch.boundary u' }

section Tie

variable {N : Net}

variable (hch : Chained ι c (guest.withUnits done) d)

include hch in
lemma Chained.host_ne (hv : c.graph.Live v) (hw : guest.graph.Live w) : v ≠ ι w := by
  rintro rfl
  exact hch.fresh hw hv

lemma Chained.boundary_tie (hch : Chained ι c (guest.withUnits done) d) (hhost : c.boundary.get? u = some host)
    (u' : UnitId) :
    ({ d with graph := g }.withEnds u ⟨host.input, (next.map ι).output⟩).boundary.get? u' =
      joinEnds ι (c.boundary.get? u') ((guest.withUnits (done.insert u next)).boundary.get? u') := by
  show (d.boundary.insert u ⟨host.input, ι next.output⟩).get? u' = joinEnds ι _ ((done.insert u next).get? u')
  rw [get?_insert, get?_insert]
  by_cases hu : u' = u
  · rw [if_pos hu, if_pos hu, hu, hhost]
    rfl
  · rw [if_neg hu, if_neg hu]
    exact hch.boundary u'

lemma Chained.made_tie (hch : Chained ι c (guest.withUnits done) d) {keep : Vertex → Bool}
    (hmade : g.bySequence.map Prod.fst = (d.graph.bySequence.map Prod.fst).filter keep)
    (hlive : ∀ w, g.vertices.contains w = (keep w && d.graph.vertices.contains w)) (hseq : c.graph.Sequenced) :
    g.bySequence.map Prod.fst = (c.graph.bySequence.map Prod.fst ++ (guest.graph.bySequence.map Prod.fst).map ι).filter fun w =>
        g.vertices.contains w := by
  rw [hmade, hch.made hseq, List.filter_filter]
  exact List.filter_congr fun w _ => (hlive w).symm

lemma not_wasEnd_output (hc : c.Wired unit) (hnew : done.get? u = none) (hhost : c.boundary.get? u = some host) :
    ¬ c.WasEnd (guest.withUnits done) host.output := by
  rintro ⟨u', _, _, hc', hg', heq⟩
  have huu : u' = u := by rw [← hc.unit_output hc', ← hc.unit_output hhost, heq]
  rw [huu] at hg'
  exact absurd (hg'.symm.trans hnew) (by simp)

lemma not_wasStart_input (hguest : guest.Wired unitG) (hnew : done.get? u = none)
    (hsub : ∀ {u' ends}, done.get? u' = some ends → guest.boundary.get? u' = some ends)
    (hnext : guest.boundary.get? u = some next) : ¬ c.WasStart (guest.withUnits done) next.input := by
  rintro ⟨u', _, _, _, hg', heq⟩
  have huu : u' = u := by rw [← hguest.unit_input (hsub hg'), ← hguest.unit_input hnext, heq]
  rw [huu] at hg'
  exact absurd (hg'.symm.trans hnew) (by simp)

variable (hc : c.Wired unit) (hguest : guest.Wired unitG) (hnew : done.get? u = none)
  (hsub : ∀ {u' ends}, done.get? u' = some ends → guest.boundary.get? u' = some ends)
  (hhost : c.boundary.get? u = some host)
include hch hc hguest hnew hhost

/-- **The links after the end of the host's wire was joined to the start of the guest's.** -/
theorem Chained.join (join : d.graph.net.IsJoin host.output (ι next.input) N) :
    (∀ {l}, c.graph.HasLink l → ¬ c.WasEnd (guest.withUnits (done.insert u next)) l.target.vertex → N.link l) ∧
    (∀ {l}, guest.graph.HasLink l → ¬ c.Spliced (guest.withUnits done) l.source.vertex → N.link (l.map ι)) ∧
    (∀ {u' host' next' l m}, c.boundary.get? u' = some host' → done.get? u' = some next' →
      guest.graph.kind? next'.input ≠ some .create → c.graph.HasLink l → l.target.vertex = host'.output →
      guest.graph.HasLink m → m.source.vertex = next'.input → N.link ⟨l.source, m.target.map ι, m.kind⟩) ∧
    (∀ {u' host' next' l}, c.boundary.get? u' = some host' → done.get? u' = some next' →
      guest.graph.kind? next'.input = some .create → c.graph.HasLink l → l.target.vertex = host'.output →
      N.link ⟨l.source, ⟨ι next'.input, 0⟩, l.kind⟩) ∧
    ∀ {l}, c.graph.HasLink l → l.target.vertex = host.output → N.link ⟨l.source, ⟨ι next.input, 0⟩, l.kind⟩ := by
  have hlive := hc.live_output hhost
  have hcopy : ∀ {w}, guest.graph.Live w → ι w ≠ host.output := fun hw => (hch.host_ne hlive hw).symm
  have hopen : ∀ {l}, c.graph.HasLink l → l.source.vertex ≠ host.output := fun hl heq =>
    hc.complete.source_open hl ⟨u, host, hhost, heq.symm⟩
  have hkeep : ∀ {m : Link}, d.graph.HasLink m → m.source.vertex ≠ host.output → m.target.vertex ≠ host.output →
      N.link m := fun hm hs ht => (join.link _).mpr (.inl ⟨hm, hs, ht⟩)
  refine ⟨fun {l} hl hv => ?_, fun {l} hl hv => ?_, fun {u' host' next' l m} hu' hg' hk' hl hlo hm hmi => ?_,
    fun {u' host' next' l} hu' hg' hk' hl hlo => ?_, fun {l} hl hlo => ?_⟩
  · rw [wasEnd_insert hnew hhost, not_or] at hv
    exact hkeep (hch.host_link hl hv.2) (hopen hl) hv.1
  · exact hkeep (hch.guest_link hl hv) (hcopy (hguest.valid.source_live hl)) (hcopy (hguest.valid.target_live hl))
  · exact hkeep (hch.joined_link hu' hg' hk' hl hlo hm hmi) (hopen (l := l) hl) (hcopy (hguest.valid.target_live hm))
  · exact hkeep (hch.reset_link hu' hg' hk' hl hlo) (hopen (l := l) hl) (hcopy (live_of_kind? hk'))
  · have hold : d.graph.HasLink l := hch.host_link hl (hlo ▸ not_wasEnd_output hc hnew hhost)
    exact (join.link _).mpr (.inr ⟨l, hold, hlo, rfl⟩)

section Elsewhere

variable (hstart : guest.graph.Live next.input)
  (hsame : ∀ {w}, w ≠ host.output → w ≠ ι next.input → g.vertices.get? w = d.graph.vertices.get? w)
omit hguest
include hstart hsame

omit hc in
lemma Chained.host_node_tie (hn : c.graph.vertices.get? v = some n)
    (hv : ¬ c.WasEnd (guest.withUnits (done.insert u next)) v) : g.vertices.get? v = some n := by
  rw [wasEnd_insert hnew hhost, not_or] at hv
  exact (hsame hv.1 (hch.host_ne (live_of_get? hn) hstart)).trans (hch.host_node hn hv.2)

lemma Chained.guest_node_tie (hn : guest.graph.vertices.get? v = some n) (hv : ¬ c.Spliced (guest.withUnits done) v)
    (hvi : v ≠ next.input) : ∃ n', g.vertices.get? (ι v) = some n' ∧ n'.opgroup = n.opgroup ∧
      (¬ c.WasStart (guest.withUnits (done.insert u next)) v → n'.kind = n.kind) ∧
      (c.WasStart (guest.withUnits (done.insert u next)) v → n'.kind = .op .reset) := by
  have hv' := live_of_get? hn
  obtain ⟨n', hn', hog, hkind, hreset⟩ := hch.guest_node hn hv
  rw [wasStart_insert hnew hhost, or_iff_right hvi]
  refine ⟨n', (hsame ?_ fun heq => hvi (hch.injective hv' hstart heq)).trans hn', hog, hkind, hreset⟩
  exact (hch.host_ne (hc.live_output hhost) hv').symm

end Elsewhere

lemma Chained.reset (created : guest.graph.kind? next.input = some .create)
    (vertices : g.vertices = ((d.graph.withoutVertex host.output).withKind (ι next.input) (.op .reset)).vertices)
    (join : d.graph.net.IsJoin host.output (ι next.input) g.net) :
    Chained ι c (guest.withUnits (done.insert u next))
      ({ d with graph := g }.withEnds u ⟨host.input, (next.map ι).output⟩) := by
  have hlive := hc.live_output hhost
  have hstart := live_of_kind? created
  have hcopy : ∀ {w}, guest.graph.Live w → ι w ≠ host.output := fun hw => (hch.host_ne hlive hw).symm
  have hspliced : ∀ {v}, c.Spliced (guest.withUnits (done.insert u next)) v ↔ c.Spliced (guest.withUnits done) v := by
    intro v
    rw [spliced_insert hnew hhost]
    refine or_iff_right fun hv => hv.2 ?_
    rw [hv.1]
    exact created
  -- the end of the host's wire is gone, and only the content of the start has changed
  have hget : ∀ w, g.vertices.get? w = if w = ι next.input then
      (d.graph.vertices.get? w).map (fun n => { n with kind := .op .reset })
      else (d.graph.vertices.release host.output).get? w := by
    intro w
    rw [vertices]
    refine (get?_update _ _ _ _).trans ?_
    split
    · next hw =>
      rw [hw]
      exact congrArg _ (get?_release_other _ (hcopy hstart))
    · rfl
  have hother : ∀ {w}, w ≠ host.output → w ≠ ι next.input → g.vertices.get? w = d.graph.vertices.get? w := by
    intro w hwo hwi
    rw [hget, if_neg hwi, get?_release_other _ hwo]
  have hcontains : ∀ w, g.vertices.contains w = (decide (w ≠ host.output) && d.graph.vertices.contains w) := by
    intro w
    unfold SlotStore.contains
    rw [hget, get?_release]
    by_cases hwi : w = ι next.input
    · simp [hwi, hcopy hstart]
    · by_cases hwo : w = host.output <;> simp [hwi, hwo, (hcopy hstart).symm]
  obtain ⟨hlinks, hcopied, hjoined, hresets, hmet⟩ := hch.join hc hguest hnew hhost join
  exact
    { fresh := hch.fresh, injective := hch.injective, boundary := hch.boundary_tie hhost
      host_node := hch.host_node_tie hnew hhost hstart hother
      guest_node := fun {v n} hn hv => by
        by_cases hvi : v = next.input
        · -- the start of this unit holds the reset now
          obtain ⟨n', hn', hog, _⟩ := hch.guest_node hn (mt hspliced.mpr hv)
          refine ⟨{ n' with kind := .op .reset }, ?_, hog, fun hnot => ?_, fun _ => rfl⟩
          · show g.vertices.get? (ι v) = _
            rw [hget, if_pos (congrArg ι hvi), hn']
            rfl
          · exact absurd ((wasStart_insert hnew hhost).mpr (.inl hvi)) hnot
        · exact hch.guest_node_tie hc hnew hhost hstart hother hn (mt hspliced.mpr hv) hvi
      cases := fun {w} hw => by
        replace hw : g.vertices.contains w := hw
        rw [hcontains, Bool.and_eq_true, decide_eq_true_eq] at hw
        rcases hch.cases hw.2 with ⟨hlive', hv⟩ | ⟨v, hlive', hv, rfl⟩
        · refine .inl ⟨hlive', ?_⟩
          rw [wasEnd_insert hnew hhost]
          exact not_or.mpr ⟨hw.1, hv⟩
        · exact .inr ⟨v, hlive', mt hspliced.mp hv, rfl⟩
      host_link := hlinks
      guest_link := fun hl hv => hcopied hl (mt hspliced.mpr hv)
      joined_link := fun {u' host' next' l m} hu' hg' hk' hl hlo hm hmi => by
        rcases (meets_insert hnew).mp ⟨hu', hg'⟩ with ⟨_, _, rfl⟩ | ⟨hu', hg'⟩
        · exact absurd created hk'
        · exact hjoined hu' hg' hk' hl hlo hm hmi
      reset_link := fun {u' host' next' l} hu' hg' hk' hl hlo => by
        rcases (meets_insert hnew).mp ⟨hu', hg'⟩ with ⟨rfl, hu'', rfl⟩ | ⟨hu', hg'⟩
        · rw [hhost] at hu''
          cases hu''
          exact hmet hl hlo
        · exact hresets hu' hg' hk' hl hlo
      made := fun hseq => by
        refine hch.made_tie (g := g) ?_ hcontains hseq
        rw [made_of_vertices vertices, made_withKind, made_of_release rfl] }

variable (hnext : guest.boundary.get? u = some next)
include hsub hnext

/-- The link into the start of a unit's wire and one out of it make one; a read leaves the host's last pin with it. -/
lemma Chained.link_through (join : d.graph.net.IsJoin host.output (ι next.input) N)
    (splice : N.IsSplice (ι next.input) g.net) (hl : c.graph.HasLink l) (hlo : l.target.vertex = host.output)
    (hm : guest.graph.HasLink m) (hmi : m.source.vertex = next.input) : g.HasLink ⟨l.source, m.target.map ι, m.kind⟩ := by
  obtain ⟨_, hcopied, _, _, hmet⟩ := hch.join hc hguest hnew hhost join
  have hm' := hcopied hm (hmi ▸ fun hv => not_wasStart_input hguest hnew hsub hnext hv.1)
  obtain ⟨hpin, hkind⟩ := hguest.source_input hnext hm hmi
  have hlk := hc.kind_of_output hhost hl hlo
  refine (splice.link _).mpr (.inr ⟨_, hmet hl hlo, rfl, ?_, m.map ι, hm', ?_, rfl, rfl, ?_⟩)
  · rw [hlk]
    exact WireKind.isLinear_wire _
  · show m.source.map ι = _
    rw [hpin]
    rfl
  · show (m.kind.isLinear ∧ m.kind = l.kind) ∨ _
    rw [hlk, ← hkind]
    by_cases hlin : m.kind.isLinear
    · exact .inl ⟨hlin, (WireKind.carrier_eq hlin).symm⟩
    · have hread := WireKind.eq_boolean hlin
      exact .inr ⟨by rw [hread]; rfl, hread, hread⟩

lemma Chained.splice (uncreated : guest.graph.kind? next.input ≠ some .create)
    (vertices : g.vertices = (d.graph.vertices.release host.output).release (ι next.input))
    (join : d.graph.net.IsJoin host.output (ι next.input) N) (splice : N.IsSplice (ι next.input) g.net) :
    Chained ι c (guest.withUnits (done.insert u next))
      ({ d with graph := g }.withEnds u ⟨host.input, (next.map ι).output⟩) := by
  have hstart := hguest.live_input hnext
  have hspliced : ∀ {v}, ¬ c.Spliced (guest.withUnits (done.insert u next)) v →
      v ≠ next.input ∧ ¬ c.Spliced (guest.withUnits done) v := by
    intro v hv
    rw [spliced_insert hnew hhost, not_or] at hv
    refine ⟨?_, hv.2⟩
    rintro rfl
    exact hv.1 ⟨rfl, uncreated⟩
  have hget : ∀ {w}, w ≠ host.output → w ≠ ι next.input → g.vertices.get? w = d.graph.vertices.get? w := by
    intro w hwo hwi
    rw [vertices, get?_release_other _ hwi, get?_release_other _ hwo]
  have hcontains : ∀ w, g.vertices.contains w =
      ((decide (w ≠ ι next.input) && decide (w ≠ host.output)) && d.graph.vertices.contains w) := by
    intro w
    unfold SlotStore.contains
    rw [vertices, get?_release, get?_release]
    by_cases hwi : w = ι next.input <;> by_cases hwo : w = host.output <;> simp [hwi, hwo]
  obtain ⟨hlinks, hcopied, hjoined, hresets, _⟩ := hch.join hc hguest hnew hhost join
  -- links that keep away from the start stay
  have hkeep : ∀ {m : _}, N.link m → m.source.vertex ≠ ι next.input → m.target.vertex ≠ ι next.input →
      g.HasLink m := fun hm hs ht => (splice.link _).mpr (.inl ⟨hm, hs, ht⟩)
  have hold : ∀ {w}, c.graph.Live w → w ≠ ι next.input := fun hw => hch.host_ne hw hstart
  have hmove : ∀ {w}, guest.graph.Live w → w ≠ next.input → ι w ≠ ι next.input := fun hw hne heq =>
    hne (hch.injective hw hstart heq)
  have hfed : ∀ {l}, guest.graph.HasLink l → ι l.target.vertex ≠ ι next.input := by
    intro l hl
    refine hmove (hguest.valid.target_live hl) fun heq => ?_
    exact hguest.target_open hl ⟨u, next, hnext, heq.symm⟩
  exact
    { fresh := hch.fresh, injective := hch.injective, boundary := hch.boundary_tie hhost
      host_node := hch.host_node_tie hnew hhost hstart hget
      guest_node := fun hn hv => by
        obtain ⟨hvi, hv⟩ := hspliced hv
        exact hch.guest_node_tie hc hnew hhost hstart hget hn hv hvi
      cases := fun {w} hw => by
        replace hw : g.vertices.contains w := hw
        simp only [hcontains, Bool.and_eq_true, decide_eq_true_eq] at hw
        rcases hch.cases hw.2 with ⟨hlive', hv⟩ | ⟨v, hlive', hv, rfl⟩
        · refine .inl ⟨hlive', ?_⟩
          rw [wasEnd_insert hnew hhost]
          exact not_or.mpr ⟨hw.1.2, hv⟩
        · refine .inr ⟨v, hlive', ?_, rfl⟩
          rw [spliced_insert hnew hhost]
          exact not_or.mpr ⟨fun hvi => hw.1.1 (congrArg ι hvi.1), hv⟩
      host_link := fun {l} hl hv =>
        hkeep (hlinks hl hv) (hold (hc.valid.source_live hl)) (hold (hc.valid.target_live hl))
      guest_link := fun {l} hl hv => by
        obtain ⟨hvi, hv⟩ := hspliced hv
        exact hkeep (hcopied hl hv) (hmove (hguest.valid.source_live hl) hvi) (hfed hl)
      joined_link := fun {u' host' next' l m} hu' hg' hk' hl hlo hm hmi => by
        rcases (meets_insert hnew).mp ⟨hu', hg'⟩ with ⟨rfl, hu'', rfl⟩ | ⟨hu', hg'⟩
        · rw [hhost] at hu''
          cases hu''
          exact hch.link_through hc hguest hnew hsub hhost hnext join splice hl hlo hm hmi
        · exact hkeep (hjoined hu' hg' hk' hl hlo hm hmi) (hold (hc.valid.source_live (l := l) hl)) (hfed hm)
      reset_link := fun {u' host' next' l} hu' hg' hk' hl hlo => by
        rcases (meets_insert hnew).mp ⟨hu', hg'⟩ with ⟨_, _, rfl⟩ | ⟨hu', hg'⟩
        · exact absurd hk' uncreated
        · refine hkeep (hresets hu' hg' hk' hl hlo) (hold (hc.valid.source_live (l := l) hl)) ?_
          refine hmove (live_of_kind? hk') fun heq => ?_
          rw [heq] at hk'
          exact uncreated hk'
      made := fun hseq => by
        refine hch.made_tie (g := g) ?_ hcontains hseq
        have hmid : ({ d.graph with vertices := d.graph.vertices.release host.output } : Graph).vertices =
          d.graph.vertices.release host.output := rfl
        rw [made_of_release (g := { d.graph with vertices := d.graph.vertices.release host.output }) vertices,
          made_of_release hmid, List.filter_filter] }

end Tie

lemma joinEnds_none (ι : Vertex → Vertex) (ends : Option Ends) : joinEnds ι ends none = ends := by
  cases ends <;> rfl

lemma Chained.tie (hch : Chained ι c (guest.withUnits done) d) (hc : c.Wired unit) (hguest : guest.Wired unitG)
    (hnew : done.get? u = none) (hsub : ∀ {u' ends}, done.get? u' = some ends → guest.boundary.get? u' = some ends)
    (hnext : guest.boundary.get? u = some next) (htied : d.Tied u (next.map ι) d') :
    Chained ι c (guest.withUnits (done.insert u next)) d' := by
  -- until then the unit has the ends that it has in the host, and its start in the guest is a plain copy
  have hends : d.boundary.get? u = c.boundary.get? u := by
    rw [hch.boundary, show (guest.withUnits done).boundary.get? u = none from hnew, joinEnds_none]
  have hkind : d.graph.kind? (ι next.input) = guest.graph.kind? next.input := by
    obtain ⟨k, hk, _⟩ := hguest.starts hnext
    obtain ⟨n, hn, rfl⟩ := map_eq_some_iff.mp hk
    have hstart : ¬ c.WasStart (guest.withUnits done) next.input := not_wasStart_input hguest hnew hsub hnext
    obtain ⟨_, hn', _, hsame, _⟩ := hch.guest_node hn fun hv => hstart hv.1
    rw [hk, kind?, hn', map_some, hsame hstart]
  cases htied with
  | new hu => exact hch.register hnew (hends.symm.trans hu)
  | reset hu created vertices join =>
    exact hch.reset hc hguest hnew (hends.symm.trans hu) (hkind.symm.trans created) vertices join
  | splice hu kind uncreated vertices join splice =>
    refine hch.splice hc hguest hnew hsub (hends.symm.trans hu) hnext (fun created => ?_) vertices join splice
    rw [← hkind, show d.graph.kind? (ι next.input) = _ from kind] at created
    cases created
    cases uncreated

lemma Tied.others (h : c.Tied u ends c') : c' = { c with graph := c'.graph, boundary := c'.boundary } := by
  cases h <;> rfl

/-! ## Tying all units -/

lemma chained_of_copy (hcopy : IsCopy c.graph guest.graph g ι true) (hgraph : d.graph = g)
    (hapart : ∀ {u host next}, c.boundary.get? u = some host → guest.boundary.get? u ≠ some next)
    (hboundary : ∀ u, d.boundary.get? u = joinEnds ι (c.boundary.get? u) (guest.boundary.get? u)) :
    Chained ι c guest d := by
  have hend : ∀ {v}, ¬ c.WasEnd guest v := fun ⟨_, _, _, hc, hg, _⟩ => hapart hc hg
  have hstart : ∀ {v}, ¬ c.WasStart guest v := fun ⟨_, _, _, hc, hg, _⟩ => hapart hc hg
  have hspliced : ∀ {v}, ¬ c.Spliced guest v := fun hv => hstart hv.1
  subst hgraph
  exact
    { fresh := fun hv => hcopy.toHosts.not_live hv, injective := hcopy.injective
      host_node := fun hn _ => hcopy.old hn
      guest_node := fun hn _ => by
        obtain ⟨k, _, _, hget, rfl, rfl⟩ := hcopy.new hn
        exact ⟨_, hget, rfl, fun _ => rfl, fun hv => absurd hv hstart⟩
      cases := fun hw => by
        obtain ⟨n, hn⟩ := live_iff.mp hw
        rcases hcopy.cases hn with hold | ⟨v, hv, rfl⟩
        · exact .inl ⟨live_of_get? hold, hend⟩
        · exact .inr ⟨v, hv, hspliced, rfl⟩
      host_link := fun hl _ => (hcopy.links _).mpr (.inl hl)
      guest_link := fun {l} hl _ => (hcopy.links _).mpr (.inr ⟨l, hl, rfl⟩)
      joined_link := fun hc hg => absurd hg (hapart hc)
      reset_link := fun hc hg => absurd hg (hapart hc)
      boundary := hboundary
      made := fun hseq => by
        rw [← hcopy.made hseq]
        exact (List.filter_eq_self.mpr fun w hw => (mem_map_bySequence hcopy.valid).mp hw).symm }

lemma IsMerged.chained (h : IsMerged .merge copies ι c guest d) (hmerge : c.checkMerge guest = .ok ()) :
    Chained ι c guest d := by
  have hapart : ∀ {u host next}, c.boundary.get? u = some host → guest.boundary.get? u ≠ some next := by
    intro u host next hhost hnext
    rw [checkMerge_eq_ok hmerge hnext] at hhost
    cases hhost
  refine chained_of_copy h.isCopy rfl hapart fun u => ?_
  rw [h.boundary]
  cases hnext : guest.boundary.get? u with
  | none => cases c.boundary.get? u <;> rfl
  | some next => rw [checkMerge_eq_ok hmerge hnext]; rfl

/-- The units of the guest that do not wait any more. -/
def tiedUnits (guest : Circuit) (pending : List (UnitId × Ends)) : SortedMap UnitId Ends :=
  guest.boundary.filter fun u _ => u ∉ pending.map Prod.fst

lemma get?_tiedUnits (pending : List (UnitId × Ends)) (u : UnitId) :
    (guest.tiedUnits pending).get? u = if u ∈ pending.map Prod.fst then none else guest.boundary.get? u := by
  unfold tiedUnits
  rw [get?_filter]
  split
  · next hu =>
    cases guest.boundary.get? u with
    | none => rfl
    | some ends => exact if_neg (by simpa using hu)
  · next hu =>
    cases guest.boundary.get? u with
    | none => rfl
    | some ends => exact if_pos (by simpa using hu)

lemma tiedUnits_nil (guest : Circuit) : guest.tiedUnits [] = guest.boundary :=
  ext_get? fun u => by rw [get?_tiedUnits]; exact if_neg List.not_mem_nil

lemma tiedUnits_movedEnds (guest : Circuit) (move : Ends → Ends) : guest.tiedUnits (guest.movedEnds move) = .empty := by
  refine ext_get? fun u => ?_
  rw [get?_tiedUnits]
  split
  · rfl
  · next hnot =>
    cases hu : guest.boundary.get? u with
    | none => rfl
    | some next =>
      exact absurd (List.mem_map.mpr ⟨(u, move next), mem_movedEnds.mpr ⟨next, hu, rfl⟩, rfl⟩) hnot

lemma tiedUnits_cons {rest : List (UnitId × Ends)} (hnot : u ∉ rest.map Prod.fst)
    (hnext : guest.boundary.get? u = some next) :
    guest.tiedUnits rest = (guest.tiedUnits ((u, ends) :: rest)).insert u next := by
  refine ext_get? fun u' => ?_
  rw [get?_insert, get?_tiedUnits, get?_tiedUnits]
  by_cases hu : u' = u
  · rw [if_pos hu, if_neg (hu ▸ hnot), hu, hnext]
  · rw [if_neg hu]
    refine if_congr ?_ rfl rfl
    rw [List.map_cons, List.mem_cons]
    exact (or_iff_right hu).symm

lemma tieUnits_run {rank : Vertex → ℕ ×ₗ ℕ} (hc : c.Wired unit) (hguest : guest.Wired unitG)
    (hends : ∀ x ∈ guest.boundary.entries, copies.getEnds x.2 = .ok (x.2.map ι))
    (hpending : d.Pending unitD rank (guest.movedEnds (Ends.map ι))) (hch : Chained ι c (guest.withUnits .empty) d) :
    ∃ d', (guest.boundary.entries.forM fun x => (ask fun _ => copies.getEnds x.2) >>= tieUnit x.1 : Edit PUnit) d =
      .ok ⟨⟩ d' ∧ d'.Wired unitD ∧ Chained ι c guest d' ∧ d' = { d with graph := d'.graph, boundary := d'.boundary } := by
  -- the units of the guest that do not wait any more have been tied
  obtain ⟨d', hrun, hdone, _, hch', hothers⟩ := forEnds_run id (Ends.map ι) tieUnit
    (fun pending d1 => d1.Pending unitD rank pending ∧ (∀ x ∈ pending, x ∈ guest.movedEnds (Ends.map ι)) ∧
      Chained ι c (guest.withUnits (guest.tiedUnits pending)) d1 ∧
      d1 = { d with graph := d1.graph, boundary := d1.boundary })
    (fun u ends rest d1 ⟨hpend, hmem, hch, hothers⟩ => by
      obtain ⟨d2, hrun, hpend', htied⟩ := tieUnit_run hpend
      obtain ⟨next, hnext, rfl⟩ := mem_movedEnds.mp (hmem _ List.mem_cons_self)
      have hnot : u ∉ rest.map Prod.fst := (List.nodup_cons.mp hpend.nodup).1
      have hnew : (guest.tiedUnits ((u, next.map ι) :: rest)).get? u = _ :=
        (get?_tiedUnits _ u).trans (if_pos List.mem_cons_self)
      have hsub : ∀ {u' ends}, (guest.tiedUnits ((u, next.map ι) :: rest)).get? u' = some ends →
          guest.boundary.get? u' = some ends := by
        intro u' ends hu'
        rw [get?_tiedUnits] at hu'
        split at hu'
        · cases hu'
        · exact hu'
      have hch' := hch.tie hc hguest hnew hsub hnext htied
      rw [← tiedUnits_cons hnot hnext] at hch'
      exact ⟨d2, hrun, hpend', fun x hx => hmem x (List.mem_cons_of_mem _ hx), hch', by rw [htied.others, hothers]⟩)
    hends ⟨hpending, fun _ hx => hx, (tiedUnits_movedEnds guest (Ends.map ι)).symm ▸ hch, rfl⟩
  rw [tiedUnits_nil] at hch'
  exact ⟨d', hrun, hdone.wired, hch', hothers⟩

/-! ## When circuits can be chained -/

/-- **`guest` can follow on `c`**: where a unit was discarded it is created anew, new units agree with the registers of
    `c`, and opgroups of one name have one signature. -/
structure Fits (c guest : Circuit) : Prop where
  ends : ∀ {u host next}, c.boundary.get? u = some host → guest.boundary.get? u = some next →
    c.graph.kind? host.output = some .discard → guest.graph.kind? next.input = some .create
  registers : ∀ u ∈ guest.units, u ∉ c.units → ∀ w ∈ c.units, w.register = u.register →
    w.kind = u.kind ∧ w.index.length = u.index.length
  opgroups : c.opgroups.Agree guest.opgroups

lemma checkAppend_of_some (hhost : c.boundary.get? u = some host) {k k' : NodeKind}
    (hk : guest.graph.kind? next.input = some k) (hk' : c.graph.kind? host.output = some k') :
    c.checkAppend guest u next = .ok () ↔ (k' = .discard → k = .create) := by
  unfold checkAppend
  rw [hhost]
  show (guest.graph.kind next.input >>= fun _ => c.graph.kind host.output >>= fun _ => _) = _ ↔ _
  rw [kind_eq_ok.mpr hk, kind_eq_ok.mpr hk']
  show (if (k'.isDiscard && !k.isCreate) then _ else _) = _ ↔ _
  cases k' <;> cases k <;> simp [NodeKind.isDiscard, NodeKind.isCreate]

lemma checkAppend_of_none (hhost : c.boundary.get? u = none) : c.checkAppend guest u next = .ok () ↔ c.Admits u := by
  unfold checkAppend
  rw [hhost]
  exact checkRegister_iff

lemma fits_iff (hc : c.Framed) (hguest : guest.Framed) : c.Fits guest ↔
    (∀ x ∈ guest.boundary.entries, c.checkAppend guest x.1 x.2 = .ok ()) ∧
      OpgroupPolicy.merge.check c.opgroups guest.opgroups = .ok () := by
  constructor
  · intro hfits
    refine ⟨fun x hx => ?_, OpgroupPolicy.check_merge_iff.mpr hfits.opgroups⟩
    have hnext := get?_iff_mem.mpr hx
    cases hhost : c.boundary.get? x.1 with
    | none =>
      exact (checkAppend_of_none hhost).mpr (hfits.registers x.1 (mem_units_iff.mpr ⟨_, hnext⟩) (not_mem_units_iff.mpr hhost))
    | some host =>
      obtain ⟨k, hk, _⟩ := hguest.starts hnext
      obtain ⟨_, hk', _⟩ := hc.stops hhost
      refine (checkAppend_of_some hhost hk hk').mpr fun hdiscard => ?_
      rw [hdiscard] at hk'
      exact mem_unique hk (hfits.ends hhost hnext hk')
  · rintro ⟨hchecks, hpolicy⟩
    refine ⟨fun {u host next} hhost hnext hdiscard => ?_, fun u hu hnot => ?_, OpgroupPolicy.check_merge_iff.mp hpolicy⟩
    · obtain ⟨k, hk, _⟩ := hguest.starts hnext
      have hcheck := hchecks (u, next) (get?_iff_mem.mp hnext)
      rw [hk, (checkAppend_of_some hhost hk hdiscard).mp hcheck rfl]
    · obtain ⟨next, hnext⟩ := mem_units_iff.mp hu
      have hcheck := hchecks (u, next) (get?_iff_mem.mp hnext)
      exact (checkAppend_of_none (not_mem_units_iff.mp hnot)).mp hcheck

/-! ## Appending -/

/-- **`c'` is `c` with `guest` appended.** -/
structure IsAppended (ι : Vertex → Vertex) (c guest c' : Circuit) : Prop extends Chained ι c guest c' where
  wellFormed : c'.WellFormed
  name : c'.name = c.name
  opgroups : c'.opgroups = c.opgroups.unionLeft guest.opgroups
  phase : c'.phase = c.phase + guest.phase

lemma Chained.isAppended (h : Chained ι c guest d) (hd : d.WellFormed)
    (hothers : d = { c with graph := d.graph, boundary := d.boundary, opgroups := c.opgroups.unionLeft guest.opgroups }) :
    IsAppended ι c guest (d.plusPhase guest.phase) where
  toChained := ⟨h.fresh, h.injective, h.host_node, h.guest_node, h.cases, h.host_link, h.guest_link, h.joined_link,
    h.reset_link, h.boundary, h.made⟩
  wellFormed := hd.of_graph rfl rfl
  name := by rw [hothers]; rfl
  opgroups := by rw [hothers]; rfl
  phase := by rw [hothers]; rfl

lemma appendRenamed_of_not_fits (hc : c.WellFormed) (hguest : guest.WellFormed)
    (hrename : guest.rename ρ = .ok (changed, renamed)) (hfits : ¬ c.Fits renamed) :
    ∃ e, appendRenamed guest ρ c = .error e c := by
  rw [fits_iff hc.toFramed (rename_wellFormed hguest hrename).toFramed] at hfits
  have hask : (ask fun _ => guest.rename ρ : Edit (Bool × Circuit)) c = .ok (changed, renamed) c := ask_of_ok hrename
  rcases forM_ask (fun (x : UnitId × Ends) host => host.checkAppend renamed x.1 x.2) renamed.boundary.entries c with
    ⟨hchecks, hrun⟩ | ⟨_, e, herror⟩
  · cases hpolicy : OpgroupPolicy.merge.check c.opgroups renamed.opgroups with
    | error e =>
      exact ⟨e, (bind_ok hask).trans ((bind_ok hrun).trans (bind_error (bind_error (ask_of_error hpolicy))))⟩
    | ok a => exact absurd ⟨hchecks, hpolicy⟩ hfits
  · exact ⟨e, (bind_ok hask).trans (bind_error herror)⟩

lemma appendRenamed_of_fits (hc : c.WellFormed) (hguest : guest.WellFormed)
    (hrename : guest.rename ρ = .ok (changed, renamed)) (hfits : c.Fits renamed) :
    ∃ c' ι, appendRenamed guest ρ c = .ok ⟨⟩ c' ∧ IsAppended ι c renamed c' := by
  have hrenamed := (rename_wellFormed hguest hrename).wired
  obtain ⟨hchecks, hpolicy⟩ := (fits_iff hc.toFramed hrenamed.toFramed).mp hfits
  have hask : (ask fun _ => guest.rename ρ : Edit (Bool × Circuit)) c = .ok (changed, renamed) c := ask_of_ok hrename
  have hasked : (renamed.boundary.entries.forM fun x => ask fun host => host.checkAppend renamed x.1 x.2 : Edit Unit) c =
      .ok () c := by
    rcases forM_ask (fun (x : UnitId × Ends) host => host.checkAppend renamed x.1 x.2) renamed.boundary.entries c with
      ⟨_, hrun⟩ | ⟨⟨x, hx, hne⟩, _⟩
    · exact hrun
    · exact absurd (hchecks x hx) hne
  obtain ⟨_, g, ι, hcopyIn, hcopy, hcopies⟩ := copyIn_run hc.wired hrenamed hpolicy
  obtain ⟨unit', rank, hpending⟩ := pending_of_copy hc.wired hrenamed hcopy
  have hpending' : ({ c with graph := g, opgroups := mergedOpgroups .merge c.opgroups renamed.opgroups } :
    Circuit).Pending unit' rank (renamed.movedEnds (Ends.map ι)) := hpending.congr rfl rfl
  obtain ⟨d, hties, hwired, hch, hothers⟩ := tieUnits_run hc.wired hrenamed (getEnds_copies hcopies hrenamed.toFramed)
    hpending' (chained_of_copy hcopy rfl (fun _ hg => nomatch hg) fun _ => (joinEnds_none ι _).symm)
  refine ⟨d.plusPhase renamed.phase, ι, ?_, ?_⟩
  · exact (bind_ok hask).trans ((bind_ok hasked).trans ((bind_ok hcopyIn).trans (bind_ok hties)))
  · exact hch.isAppended hwired.wellFormed hothers

/-- **Appending succeeds if the renamed circuit fits**, and otherwise changes nothing. -/
theorem appendRenamed_cases (hc : c.WellFormed) (hguest : guest.WellFormed) (ρ : Renaming) :
    (∃ changed renamed c' ι, guest.rename ρ = .ok (changed, renamed) ∧ c.Fits renamed ∧
      appendRenamed guest ρ c = .ok ⟨⟩ c' ∧ IsAppended ι c renamed c') ∨
    ((∀ changed renamed, guest.rename ρ = .ok (changed, renamed) → ¬ c.Fits renamed) ∧
      ∃ e, appendRenamed guest ρ c = .error e c) := by
  cases hrename : guest.rename ρ with
  | error e => exact .inr ⟨fun _ _ heq => (nomatch heq), e, bind_error (ask_of_error hrename)⟩
  | ok result =>
    obtain ⟨changed, renamed⟩ := result
    by_cases hfits : c.Fits renamed
    · obtain ⟨c', ι, hrun, happ⟩ := appendRenamed_of_fits hc hguest hrename hfits
      exact .inl ⟨changed, renamed, c', ι, rfl, hfits, hrun, happ⟩
    · refine .inr ⟨fun _ _ heq => ?_, appendRenamed_of_not_fits hc hguest hrename hfits⟩
      cases heq
      exact hfits

lemma appendRenamed_eq_ok {a : Unit} (hc : c.WellFormed) (hguest : guest.WellFormed)
    (hrun : appendRenamed guest ρ c = .ok a c') : ∃ changed renamed ι, guest.rename ρ = .ok (changed, renamed) ∧
      c.Fits renamed ∧ IsAppended ι c renamed c' := by
  rcases appendRenamed_cases hc hguest ρ with ⟨changed, renamed, _, ι, hrename, hfits, hrun1, happ⟩ | ⟨_, e, herror⟩
  · obtain ⟨_, rfl⟩ := ok_unique hrun1 hrun
    exact ⟨changed, renamed, ι, hrename, hfits, happ⟩
  · rw [herror] at hrun
    cases hrun

lemma appendRenamed_keeps (hguest : guest.WellFormed) (ρ : Renaming) : Keeps WellFormed (appendRenamed guest ρ) := by
  intro c a c' h hrun
  obtain ⟨_, _, _, _, _, happ⟩ := appendRenamed_eq_ok h hguest hrun
  exact happ.wellFormed

lemma sequential_of_fits (hc : c.WellFormed) (hguest : guest.WellFormed) (hfits : c.Fits guest) :
    ∃ d ι, c.sequential guest = .ok d ∧ IsAppended ι c guest d := by
  obtain ⟨d, ι, hrun, happ⟩ := appendRenamed_of_fits hc hguest (rename_empty guest) hfits
  exact ⟨d, ι, edited_eq_ok.mpr ⟨⟨⟩, hrun⟩, happ⟩

lemma sequential_eq_ok (hc : c.WellFormed) (hguest : guest.WellFormed) (hrun : c.sequential guest = .ok d) :
    c.Fits guest ∧ ∃ ι, IsAppended ι c guest d := by
  obtain ⟨a, hrun⟩ := edited_eq_ok.mp hrun
  obtain ⟨_, _, ι, hrename, hfits, happ⟩ := appendRenamed_eq_ok hc hguest hrun
  cases (rename_empty guest).symm.trans hrename
  exact ⟨hfits, ι, happ⟩

end Circuit

end Wireloom
