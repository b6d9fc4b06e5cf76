import DocWalk.Proofs.Fetch.Reading

/-!
# The end of an edge at which it is read

A vertex document holds the edges that start at it in one array and the edges
that finish at it in another one. A fetch of a vertex with an edge joins one of
the two arrays. The steps from an edge to its ends tell which: the array is the
one for the end that the vertex is at.

## Implementation notes

The way in which a traversal followed an edge decides three times: where a step
to an end of the edge goes, in which array the vertex behind the edge has it,
and in which array the vertex before it does. All three are brought to one
form, `InArray`, which names the vertex that is read and the one that is not.
-/

namespace DocWalk

/-- The array of a vertex document that has the edge of a link. One end of the edge is at that
vertex, and the other one is somewhere else. -/
inductive InArray (settings : CompilerSettings) (l : Link) (d : Direction) (here there : String) :
    String → Prop where
  | starting (hstart : EdgeEnd.start.vertex? l d = some here)
      (hfinish : EdgeEnd.finish.vertex? l d = some there) :
      InArray settings l d here there settings.edgeField
  | finishing (hstart : EdgeEnd.start.vertex? l d = some there)
      (hfinish : EdgeEnd.finish.vertex? l d = some here) :
      InArray settings l d here there settings.reverseEdgeField

section Tables

variable {settings : CompilerSettings} {d : Direction} {field : String}

theorem inArray_source (h : settings.arrayAtSource? d = some field) (l : Link) :
    InArray settings l d l.source l.sink field := by
  cases d with
  | outgoing =>
      cases h
      exact .starting rfl rfl
  | incoming =>
      cases h
      exact .finishing rfl rfl
  | both => cases h

theorem inArray_sink (h : settings.arrayAtSink? d = some field) (l : Link) :
    InArray settings l d l.sink l.source field := by
  cases d with
  | outgoing =>
      cases h
      exact .finishing rfl rfl
  | incoming =>
      cases h
      exact .starting rfl rfl
  | both => cases h

end Tables

namespace Trail

variable {t : Trail}

/-- From an edge, the step to one of its ends leads to the given vertex. -/
def LeadsTo (t : Trail) (edge : String) (e : EdgeEnd) (vertex : String) : Prop :=
  ∃ onEdge atEnd, t.moveTo edge = .ok onEdge ∧ onEdge.apply (.toEnd e) = .ok atEnd ∧
    atEnd.current = some vertex

/-- The two ends of an edge are at different vertices. -/
theorem Layout.source_ne_sink (ht : t.Layout) {l : Link} (hl : l ∈ t.links) :
    l.source ≠ l.sink := by
  obtain ⟨before, d, after, ho, hs⟩ := ht.spans l hl
  have hn := ht.nodup
  rw [aliases, ho, List.map_append] at hn
  have hdisjoint := (List.nodup_append.mp hn).2.2
  exact hdisjoint l.source (List.mem_map_of_mem hs) l.sink (by simp)

/-- Where a step from an edge leads is told by the link of the edge and by the way in which the
edge was followed. -/
theorem WellFormed.leadsTo_iff (ht : t.WellFormed) {edge : Variable} {l : Link} {d : Direction}
    (he : edge ∈ t.variables) (hk : edge.kind = .edge d) (hl : l ∈ t.links)
    (hle : l.edge = edge.alias) (e : EdgeEnd) (vertex : String) :
    t.LeadsTo edge.alias e vertex ↔ e.vertex? l d = some vertex := by
  have hmove : t.moveTo edge.alias = .ok (t.standOn edge.alias) := moveTo_of_mem (mem_aliases he)
  have ht' : (t.standOn edge.alias).WellFormed := ht.toLayout.standOn (mem_aliases he)
  have hc : (t.standOn edge.alias).currentVariable? = some edge := ht.find?_of_mem he
  constructor
  · rintro ⟨onEdge, atEnd, hm, ha, hv⟩
    cases hmove.symm.trans hm
    have htakes := (apply_eq_ok_iff ht').mp ha
    cases htakes with
    | @toEnd edge' d' l' _ vertex' hc' hk' hl' hle' hn =>
        cases hc.symm.trans hc'
        cases hk.symm.trans hk'
        cases hv
        -- no two links are over one edge
        have hlinks : some l = some l' := by
          rw [← ht.linkOf?_of_mem hl, ← ht.linkOf?_of_mem hl', hle, hle']
        cases hlinks
        exact hn
    | filter _ hs => cases hs
  · intro hn
    have htakes : (t.standOn edge.alias).Takes (.toEnd e) _ := .toEnd hc hk hl hle hn
    exact ⟨_, _, hmove, htakes.apply_eq ht', rfl⟩

/-- What is read with an edge is a vertex at one end of it, and the array is that of the end. -/
theorem Reads.inArray {settings : CompilerSettings} {v : Variable} {r : Reading}
    (h : t.Reads settings v r) (ht : t.Layout) (hv : v ∈ t.variables) {edge : Variable}
    {field : String} (he : r.edge = some (edge, field)) :
    ∃ l d there, l ∈ t.links ∧ l.edge = edge.alias ∧ edge ∈ t.variables ∧
      edge.kind = .edge d ∧ r.vertex.alias ≠ there ∧
      InArray settings l d r.vertex.alias there field := by
  cases h with
  | alone hk hl => cases he
  | @reached _ l d _ hk hl hs hedge hn hd hf =>
      cases he
      have hne := (ht.source_ne_sink hl).symm
      rw [hs] at hne
      exact ⟨l, d, l.source, hl, hn.symm, hedge, hd, hne, hs ▸ inArray_sink hf l⟩
  | @edge source l d _ hk hl hle hs hn hf =>
      cases he
      have hne := ht.source_ne_sink hl
      rw [← hn] at hne
      exact ⟨l, d, l.sink, hl, hle, hv, hk, hne, hn ▸ inArray_source hf l⟩

/-- A fetch with an edge reads it from the array for the end that its vertex is at: exactly one of
the steps to the start and to the finish of the edge leads to that vertex, and the join is on the
array of edges that start there, or on that of edges that finish there. -/
theorem fetchOf_join_at_end {steps : List Step} {t : Trail} (h : empty.run steps = .ok t)
    {settings : CompilerSettings} {name node edge : String} {q : Fetch}
    (hq : t.fetchOf settings name = .ok q) (hnode : q.node = some node)
    (hedge : q.edge = some edge) :
    (t.LeadsTo edge .start node ∧ ¬ t.LeadsTo edge .finish node ∧
        q.joins = [⟨edge, node ++ "." ++ settings.edgeField⟩]) ∨
      (t.LeadsTo edge .finish node ∧ ¬ t.LeadsTo edge .start node ∧
        q.joins = [⟨edge, node ++ "." ++ settings.reverseEdgeField⟩]) := by
  have ht := empty_wellFormed.run h
  obtain ⟨v, hv, hq⟩ := bind_eq_ok_iff.mp hq
  obtain ⟨⟨vertex, found⟩, hr, _, rfl⟩ := fetchWithin_eq_ok hq
  rw [Fetch.ofReading_eq] at hnode hedge ⊢
  obtain rfl : vertex.alias = node := Option.some.inj hnode
  obtain ⟨⟨w, field⟩, rfl, rfl⟩ := Option.map_eq_some_iff.mp hedge
  obtain ⟨l, d, there, hl, hle, hw, hk, hne, harray⟩ :=
    hr.inArray ht.toLayout (mem_of_get hv).1 rfl
  have hends := fun (e : EdgeEnd) => ht.leadsTo_iff hw hk hl hle e vertex.alias
  cases harray with
  | starting hstart hfinish =>
      refine Or.inl ⟨(hends .start).mpr hstart, fun hlead => ?_, rfl⟩
      exact hne (Option.some.inj (((hends .finish).mp hlead).symm.trans hfinish))
  | finishing hstart hfinish =>
      refine Or.inr ⟨(hends .finish).mpr hfinish, fun hlead => ?_, rfl⟩
      exact hne (Option.some.inj (((hends .start).mp hlead).symm.trans hstart))

/-- To an edge against its direction, on to the vertex where it starts, and from there over another
edge. -/
def againstAndOn : List Step :=
  [.vertices ["1"], .hopToEdge .incoming ["knows"], .toEnd .start, .hop .outgoing ["made"]]

/-- The edge that was followed against its direction finishes where the traversal began. -/
theorem fetchOf_join_at_end_againstAndOn :
    ∃ t q, empty.run againstAndOn = .ok t ∧ t.fetchOf {} "E_0" = .ok q ∧
      q.node = some "N_0" ∧ q.edge = some "E_0" ∧ t.LeadsTo "E_0" .finish "N_0" ∧
      ¬ t.LeadsTo "E_0" .start "N_0" ∧ q.joins = [⟨"E_0", "N_0._reverse_edge"⟩] := by
  obtain ⟨t, q, h, hq, hnode, hedge, hjoins⟩ : ∃ t q, empty.run againstAndOn = .ok t ∧
      t.fetchOf {} "E_0" = .ok q ∧ q.node = some "N_0" ∧ q.edge = some "E_0" ∧
      q.joins = [⟨"E_0", "N_0._reverse_edge"⟩] := ⟨_, _, rfl, rfl, rfl, rfl, rfl⟩
  refine ⟨t, q, h, hq, hnode, hedge, ?_⟩
  rcases fetchOf_join_at_end h hq hnode hedge with ⟨_, _, hj⟩ | ⟨hfinish, hstart, _⟩
  · exact absurd (hjoins.symm.trans hj) (by decide)
  · exact ⟨hfinish, hstart, hjoins⟩

end Trail

end DocWalk
