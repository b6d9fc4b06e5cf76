import DocWalk.Proofs.Fetch.Outcome

/-!
# Later steps and earlier fetches

A traversal only adds to its trail. Steps that come later bind new variables
and link them, go back to old ones and filter them, but the links into an old
variable and over an old edge stay the ones there were. The fetch of a
variable therefore depends on later steps only through the filters of the
variables that were bound up to it.

## Implementation notes

Labels that a variable gathers have no part in a fetch, so variables are
compared without them.
-/

namespace DocWalk

namespace Trail

/-- A trail that goes on from another one. Variables and links are only added, and no link that is
added leads to a variable that was bound before. -/
structure Continues (t t' : Trail) : Prop where
  outline : t.outline <+: t'.outline
  links : ∃ added, t'.links = t.links ++ added ∧ ∀ l ∈ added, l.sink ∉ t.aliases

section Growth

variable {t t' t'' : Trail}

theorem continues_refl (t : Trail) : t.Continues t where
  outline := List.prefix_refl _
  links := ⟨[], by simp, by simp⟩

theorem Continues.aliases_subset (h : t.Continues t') : t.aliases ⊆ t'.aliases := by
  intro name hn
  obtain ⟨p, hp, rfl⟩ := List.mem_map.mp hn
  exact List.mem_map_of_mem (h.outline.subset hp)

theorem Continues.trans (h : t.Continues t') (h' : t'.Continues t'') : t.Continues t'' where
  outline := h.outline.trans h'.outline
  links := by
    obtain ⟨added, hl, hnew⟩ := h.links
    obtain ⟨added', hl', hnew'⟩ := h'.links
    refine ⟨added ++ added', by rw [hl', hl, List.append_assoc], ?_⟩
    intro l hm
    rcases List.mem_append.mp hm with hm | hm
    · exact hnew l hm
    · exact fun hs => hnew' l hm (h.aliases_subset hs)

theorem continues_of_links_eq (ho : t.outline <+: t'.outline) (hl : t'.links = t.links) :
    t.Continues t' where
  outline := ho
  links := ⟨[], by simpa using hl, by simp⟩

/-- The vertex behind a new edge is new as well. -/
theorem Layout.continues_bindHop (ht : t.Layout) (source : String) (d : Direction)
    (labels : List String) : t.Continues (t.bindHop source d labels) where
  outline := by
    rw [outline_bindHop]
    exact List.prefix_append _ _
  links := by
    refine ⟨_, links_bindHop t source d labels, ?_⟩
    intro l hl
    cases List.mem_singleton.mp hl
    exact ht.vertexAlias_notMem

/-- One step goes on from the trail it is taken on. -/
theorem Takes.continues {s : Step} (ht : t.Layout) (h : t.Takes s t') : t.Continues t' := by
  cases h with
  | source ids =>
      apply continues_of_links_eq
      · rw [outline_standOn, outline_restrictAt, outline_declare]
        exact List.prefix_append _ _
      · exact links_declare t .vertex
  | @hop v hv hk d labels =>
      have hb := ht.continues_bindHop v.alias d labels
      exact ⟨hb.outline, hb.links⟩
  | @hopToEdge v hv hk d labels =>
      have hb := ht.continues_bindHop v.alias d labels
      exact ⟨hb.outline, hb.links⟩
  | toEnd hv hk hl he hn => exact continues_of_links_eq (List.prefix_refl _) rfl
  | @filter v s hv hs =>
      refine continues_of_links_eq ?_ rfl
      rewrite [outline_restrictAt]
      exact List.prefix_refl _

/-- A whole run goes on from the trail it starts from. -/
theorem WellFormed.continues {steps : List Step} (ht : t.WellFormed) (h : t.run steps = .ok t') :
    t.Continues t' := by
  induction steps using List.reverseRecOn generalizing t' with
  | nil =>
      cases h
      exact continues_refl t
  | append_singleton steps s ih =>
      obtain ⟨t₁, h₁, hs⟩ := exists_of_run_append_singleton h
      have ht₁ := ht.run h₁
      exact (ih h₁).trans (((apply_eq_ok_iff ht₁).mp hs).continues ht₁.toLayout)

end Growth

section Links

variable {t t' : Trail}

theorem Continues.link_mem (h : t.Continues t') {l : Link} (hl : l ∈ t.links) : l ∈ t'.links := by
  obtain ⟨added, hadded, _⟩ := h.links
  rw [hadded]
  exact List.mem_append_left added hl

/-- The link into an old vertex stays the one there was, and none stays none. -/
theorem Continues.incoming?_eq (h : t.Continues t') (ht' : t'.Layout) {name : String}
    (hn : name ∈ t.aliases) : t'.incoming? name = t.incoming? name := by
  cases hi : t.incoming? name with
  | some l =>
      obtain ⟨hl, rfl⟩ := mem_of_incoming? hi
      exact ht'.incoming?_of_mem (h.link_mem hl)
  | none =>
      cases hi' : t'.incoming? name with
      | none => rfl
      | some l =>
          obtain ⟨hl, rfl⟩ := mem_of_incoming? hi'
          obtain ⟨added, hadded, hnew⟩ := h.links
          rw [hadded] at hl
          rcases List.mem_append.mp hl with hl | hl
          · exact absurd rfl (sink_ne_of_incoming? hi l hl)
          · exact absurd hn (hnew l hl)

/-- The link over an old edge stays the one there was. -/
theorem Continues.linkOf?_eq (h : t.Continues t') (ht : t.Layout) (ht' : t'.Layout)
    {name : String} {d : Direction} (hn : (name, Kind.edge d) ∈ t.outline) :
    t'.linkOf? name = t.linkOf? name := by
  obtain ⟨l, hl, rfl⟩ := ht.exists_link hn rfl
  rw [ht.linkOf?_of_mem hl, ht'.linkOf?_of_mem (h.link_mem hl)]

end Links

end Trail

namespace Variable

/-- A variable without the labels it has gathered. -/
def unlabelled (v : Variable) : Variable :=
  { v with labels := [] }

@[simp] theorem unlabelled_alias (v : Variable) : v.unlabelled.alias = v.alias := rfl

@[simp] theorem unlabelled_kind (v : Variable) : v.unlabelled.kind = v.kind := rfl

@[simp] theorem unlabelled_filter (v : Variable) : v.unlabelled.filter = v.filter := rfl

/-- The variable of an outline's entry, with the filter that belongs to its alias. -/
def ofOutline (filter : String → Option Expr) (p : String × Kind) : Variable :=
  ⟨p.1, p.2, [], filter p.1⟩

/-- Where the alias tells the filter, the outline tells everything but the labels. -/
theorem map_unlabelled {filter : String → Option Expr} {vs : List Variable}
    (h : ∀ v ∈ vs, filter v.alias = v.filter) :
    vs.map unlabelled = (vs.map fun v => (v.alias, v.kind)).map (ofOutline filter) := by
  rw [List.map_map]
  apply List.map_congr_left
  intro v hv
  simp only [Function.comp_apply, ofOutline, h v hv, unlabelled]

end Variable

/-- What is read, without labels. -/
def Reading.unlabelled (r : Reading) : Reading :=
  ⟨r.vertex.unlabelled, r.edge.map fun p => (p.1.unlabelled, p.2)⟩

theorem Reading.covers_unlabelled (r : Reading) : r.unlabelled.covers = r.covers := by
  funext name
  obtain ⟨vertex, edge⟩ := r
  cases edge <;> rfl

/-- Labels have no part in a fetch. -/
theorem Fetch.ofReading_unlabelled (settings : CompilerSettings) (r : Reading) (target : String) :
    ofReading settings r.unlabelled target = ofReading settings r target := by
  obtain ⟨vertex, edge⟩ := r
  cases edge <;> rfl

namespace Trail

/-- The fetch of what is read, when no variable in scope has a filter that it leaves out. -/
def fetchFrom (settings : CompilerSettings) (scope : List Variable) (target : String)
    (r : Reading) : Except TraversalError Fetch :=
  match stray? scope r with
  | some w => .error (.strayFilter w.alias target)
  | none => .ok (Fetch.ofReading settings r target)

theorem fetchWithin_eq (t : Trail) (settings : CompilerSettings) (scope : List Variable)
    (v : Variable) :
    t.fetchWithin settings scope v = t.reading settings v >>= fetchFrom settings scope v.alias :=
  rfl

theorem stray?_unlabelled (scope : List Variable) (r : Reading) :
    stray? (scope.map Variable.unlabelled) r.unlabelled =
      (stray? scope r).map Variable.unlabelled := by
  rw [stray?, stray?, List.find?_map, Reading.covers_unlabelled]
  rfl

theorem fetchFrom_unlabelled (settings : CompilerSettings) (scope : List Variable)
    (target : String) (r : Reading) :
    fetchFrom settings (scope.map Variable.unlabelled) target r.unlabelled =
      fetchFrom settings scope target r := by
  rw [fetchFrom, fetchFrom, stray?_unlabelled]
  cases stray? scope r with
  | none => exact congrArg Except.ok (Fetch.ofReading_unlabelled settings r target)
  | some w => rfl

/-- A fetch is told by what is read and by what is in scope, both without labels. -/
theorem fetchWithin_unlabelled (t : Trail) (settings : CompilerSettings) (scope : List Variable)
    (v : Variable) :
    t.fetchWithin settings scope v = (t.reading settings v).map Reading.unlabelled >>=
      fetchFrom settings (scope.map Variable.unlabelled) v.unlabelled.alias := by
  rw [fetchWithin_eq]
  cases t.reading settings v with
  | error e => rfl
  | ok r => exact (fetchFrom_unlabelled settings scope v.alias r).symm

section Order

variable {t : Trail} (ht : t.Layout) {before after : List Variable} {v : Variable}
variable (hv : t.variables = before ++ v :: after)

include ht hv

/-- The scope of a bound variable is what was bound up to it. -/
theorem Layout.scopeOf_eq : t.scopeOf v.alias = before ++ [v] := by
  have hn : (t.variables.map (·.alias)).Nodup := t.aliases_eq ▸ ht.nodup
  have hne : ∀ w ∈ before, (w.alias != v.alias) = true := by
    intro w hw
    rw [hv, List.map_append, List.nodup_append] at hn
    have hd := hn.2.2 w.alias (List.mem_map_of_mem hw) v.alias (by simp)
    simpa using hd
  have htake : t.variables.takeWhile (fun w => w.alias != v.alias) = before := by
    rw [hv, List.takeWhile_append_of_pos hne, List.takeWhile_cons_of_neg (by simp),
      List.append_nil]
  have hsplit : t.variables = (before ++ [v]) ++ after := by
    simpa using hv
  have hlen : before.length + 1 = (before ++ [v]).length := by simp
  rw [scopeOf, htake, hsplit, hlen, List.take_left]

theorem Layout.fetchOf_eq_fetchWithin (settings : CompilerSettings) :
    t.fetchOf settings v.alias = t.fetchWithin settings (before ++ [v]) v := by
  rw [fetchOf, ht.get_of_mem (by simp [hv]), ht.scopeOf_eq hv]
  rfl

/-- A variable whose outline stands before that of another one was bound before it. -/
theorem Layout.exists_before {first rest : List (String × Kind)} {k : Kind}
    (ho : t.outline = first ++ (v.alias, k) :: rest) {name : String}
    (hn : name ∈ first.map Prod.fst) : ∃ w ∈ before, w.alias = name := by
  have hal : t.aliases = first.map Prod.fst ++ v.alias :: rest.map Prod.fst := by
    simp [aliases, ho]
  have hal' : t.aliases = before.map (·.alias) ++ v.alias :: after.map (·.alias) := by
    simp [aliases_eq, hv]
  -- an alias stands in one place only
  have hone := (List.nodup_middle.mp (hal ▸ ht.nodup)).notMem
  rw [List.mem_append, not_or] at hone
  obtain ⟨hfirst, _⟩ :=
    (List.append_cons_inj_of_notMem hone.1 hone.2).mp (hal.symm.trans hal')
  exact List.mem_map.mp (hfirst ▸ hn)

/-- The edge of a link is bound before the vertex at its end. -/
theorem Layout.edge_before {l : Link} (hl : l ∈ t.links) (hs : l.sink = v.alias) :
    ∃ edge ∈ before, edge.alias = l.edge := by
  obtain ⟨first, d, rest, ho, _⟩ := ht.spans l hl
  rw [hs, List.append_cons] at ho
  exact ht.exists_before hv ho (by simp)

/-- The vertex that a link starts from is bound before its edge. -/
theorem Layout.source_before {l : Link} (hl : l ∈ t.links) (he : l.edge = v.alias) :
    ∃ source ∈ before, source.alias = l.source := by
  obtain ⟨first, d, rest, ho, hs⟩ := ht.spans l hl
  rw [he] at ho
  exact ht.exists_before hv ho (List.mem_map_of_mem hs)

end Order

section Agreement

variable {t t' : Trail}

/-- A trail that goes on from another one and has the same filters on the variables up to and
including the given one. -/
structure Keeps (t t' : Trail) (before : List Variable) (v : Variable) : Prop
    extends Continues t t' where
  layout : t.Layout
  layout' : t'.Layout
  bound : ∃ after, t.variables = before ++ v :: after
  filters : ∀ w ∈ before ++ [v], t'.filterOf? w.alias = w.filter

namespace Keeps

variable {before : List Variable} {v : Variable} (h : Keeps t t' before v)

include h

theorem scope_subset {w : Variable} (hw : w ∈ before ++ [v]) : w ∈ t.variables := by
  obtain ⟨after, hb⟩ := h.bound
  rw [hb, List.append_cons]
  exact List.mem_append_left after hw

/-- The longer trail begins with the same variables, but for their labels. -/
theorem exists_scope : ∃ before' v' after', t'.variables = before' ++ v' :: after' ∧
    (before' ++ [v']).map Variable.unlabelled = (before ++ [v]).map Variable.unlabelled := by
  obtain ⟨after, hb⟩ := h.bound
  obtain ⟨more, hmore⟩ := h.outline
  have ho : t'.variables.map (fun w => (w.alias, w.kind)) =
      before.map (fun w => (w.alias, w.kind)) ++ (v.alias, v.kind) ::
        (after.map (fun w => (w.alias, w.kind)) ++ more) := by
    rw [outline, outline, hb] at hmore
    simpa using hmore.symm
  obtain ⟨before', tail, hsplit, hbefore, htail⟩ := List.map_eq_append_iff.mp ho
  obtain ⟨v', after', rfl, hv', _⟩ := List.map_eq_cons_iff.mp htail
  refine ⟨before', v', after', hsplit, ?_⟩
  -- alias and kind come from the outline, and the alias tells the filter in the longer trail
  have hfilters : ∀ w ∈ before' ++ [v'], t'.filterOf? w.alias = w.filter := by
    intro w hw
    apply h.layout'.filterOf?_alias
    rw [hsplit, List.append_cons]
    exact List.mem_append_left after' hw
  rw [Variable.map_unlabelled h.filters, Variable.map_unlabelled hfilters]
  simp only [List.map_append, List.map_cons, List.map_nil, hbefore, hv']

/-- A variable that was bound up to the last one is found as it was. -/
theorem get_eq {w : Variable} (hw : w ∈ before ++ [v]) :
    ∃ w', t'.get w.alias = .ok w' ∧ w'.unlabelled = w.unlabelled := by
  have hm := h.outline.subset (mem_outline (h.scope_subset hw))
  obtain ⟨w', hw', ha, hk⟩ := exists_of_mem_outline hm
  have hf : w'.filter = w.filter := by
    rw [← h.layout'.filterOf?_alias hw', ha, h.filters w hw]
  refine ⟨w', ha ▸ h.layout'.get_of_mem hw', ?_⟩
  simp only [Variable.unlabelled, ha, hk, hf]

/-- What is read for the variable is what was read, but for labels. -/
theorem reading_eq (settings : CompilerSettings) {v' : Variable}
    (hv' : v'.unlabelled = v.unlabelled) :
    (t'.reading settings v').map Reading.unlabelled =
      (t.reading settings v).map Reading.unlabelled := by
  obtain ⟨after, hb⟩ := h.bound
  have hv : v ∈ t.variables := h.scope_subset (by simp)
  have ha : v'.alias = v.alias := by
    simpa using congrArg Variable.alias hv'
  have hk' : v'.kind = v.kind := by
    simpa using congrArg Variable.kind hv'
  cases hk : v.kind with
  | vertex =>
      have hi' := h.incoming?_eq h.layout' (mem_aliases hv)
      cases hi : t.incoming? v.alias with
      | none =>
          rw [hi] at hi'
          simp only [reading, hk', hk, ha, hi, hi', Except.map, Reading.unlabelled, hv',
            Option.map_none]
      | some l =>
          rw [hi] at hi'
          obtain ⟨hl, hs⟩ := mem_of_incoming? hi
          obtain ⟨edge, he, hn⟩ := h.layout.edge_before hb hl hs
          obtain ⟨edge', hg', hu⟩ := h.get_eq (List.mem_append_left [v] he)
          have hg := h.layout.get_of_mem (h.scope_subset (List.mem_append_left [v] he))
          rw [hn] at hg hg'
          have hd : edge'.kind = edge.kind := by
            simpa using congrArg Variable.kind hu
          simp only [reading, hk', hk, ha, hi, hi', hg, hg', bind, Except.bind, hd]
          split <;> simp only [Except.map, Reading.unlabelled, hv', hu, Option.map_some]
  | edge d =>
      have hi' := h.linkOf?_eq h.layout h.layout' (hk ▸ mem_outline hv)
      cases hi : t.linkOf? v.alias with
      | none =>
          rw [hi] at hi'
          simp only [reading, hk', hk, ha, hi, hi', Except.map]
      | some l =>
          rw [hi] at hi'
          obtain ⟨hl, he⟩ := mem_of_linkOf? hi
          obtain ⟨source, hs, hn⟩ := h.layout.source_before hb hl he
          obtain ⟨source', hg', hu⟩ := h.get_eq (List.mem_append_left [v] hs)
          have hg := h.layout.get_of_mem (h.scope_subset (List.mem_append_left [v] hs))
          rw [hn] at hg hg'
          simp only [reading, hk', hk, ha, hi, hi', hg, hg', bind, Except.bind]
          split <;> simp only [Except.map, Reading.unlabelled, hv', hu, Option.map_some]

end Keeps

/-- Whatever comes after it, the fetch of a variable is told by the filters up to it. -/
theorem Keeps.fetchOf_eq {before : List Variable} {v : Variable} (h : Keeps t t' before v)
    (settings : CompilerSettings) : t'.fetchOf settings v.alias = t.fetchOf settings v.alias := by
  obtain ⟨after, hb⟩ := h.bound
  obtain ⟨before', v', after', hb', hu⟩ := h.exists_scope
  have hv' : v'.unlabelled = v.unlabelled := by
    simpa using congrArg List.getLast? hu
  have ha : v'.alias = v.alias := by
    simpa using congrArg Variable.alias hv'
  calc t'.fetchOf settings v.alias
      = t'.fetchWithin settings (before' ++ [v']) v' := by
        rw [← ha]
        exact h.layout'.fetchOf_eq_fetchWithin hb' settings
    _ = t.fetchWithin settings (before ++ [v]) v := by
        rw [fetchWithin_unlabelled, fetchWithin_unlabelled, h.reading_eq settings hv', hu, hv']
    _ = t.fetchOf settings v.alias := (h.layout.fetchOf_eq_fetchWithin hb settings).symm

end Agreement

/-- Later steps cannot change an earlier fetch. Where the filters of the variables up to and
including one are what they were, its fetch is the one it had, and so is the reason for having
none. -/
theorem fetchOf_eq_of_run {steps more : List Step} {t t' : Trail}
    (h : empty.run steps = .ok t) (h' : t.run more = .ok t') {before after : List Variable}
    {v : Variable} (hv : t.variables = before ++ v :: after)
    (hsame : ∀ w ∈ before ++ [v], t'.filterOf? w.alias = w.filter) (settings : CompilerSettings) :
    t'.fetchOf settings v.alias = t.fetchOf settings v.alias := by
  have ht := empty_wellFormed.run h
  have hkeeps : Keeps t t' before v :=
    { toContinues := ht.continues h'
      layout := ht.toLayout
      layout' := (ht.run h').toLayout
      bound := ⟨after, hv⟩
      filters := hsame }
  exact hkeeps.fetchOf_eq settings

/-- To an edge. -/
def toEdge : List Step :=
  [.vertices ["1"], .hopToEdge .outgoing ["knows"]]

/-- From an edge back to where it starts, and out of there over another one. -/
def backOut : List Step :=
  [.toEnd .start, .hop .incoming ["made"], .has "age" (.compare .less (.int 40))]

/-- The vertex that `toEdge` starts from. -/
def edgeSource : Variable :=
  ⟨"N_0", .vertex, [], oneOf "N_0" idProperty ["1"]⟩

/-- The edge that `toEdge` ends on. -/
def labelledEdge : Variable :=
  ⟨"E_0", .edge .outgoing, ["knows"], oneOf "E_0" labelProperty ["knows"]⟩

/-- The trail of `toEdge`. -/
def edgeTrail : Trail where
  «variables» := [edgeSource, labelledEdge, .fresh "N_1" .vertex]
  links := [⟨"N_0", "E_0", "N_1"⟩]
  filter := conjoinBy edgeSource.filter labelledEdge.filter
  current := some "E_0"
  vertexCount := 2
  edgeCount := 1

theorem fetchOf_eq_of_run_backOut :
    ∃ t' q, empty.run toEdge = .ok edgeTrail ∧ edgeTrail.run backOut = .ok t' ∧
      t'.variables.length = 5 ∧ edgeTrail.fetchOf {} "E_0" = .ok q ∧
      t'.fetchOf {} "E_0" = edgeTrail.fetchOf {} "E_0" := by
  have h : empty.run toEdge = .ok edgeTrail := rfl
  obtain ⟨t', h', hlen, hsource, hedge⟩ : ∃ t', edgeTrail.run backOut = .ok t' ∧
      t'.variables.length = 5 ∧ t'.filterOf? "N_0" = edgeSource.filter ∧
      t'.filterOf? "E_0" = labelledEdge.filter := ⟨_, rfl, rfl, rfl, rfl⟩
  have hsame : ∀ w ∈ [edgeSource] ++ [labelledEdge], t'.filterOf? w.alias = w.filter := by
    intro w hw
    rcases List.mem_pair.mp hw with rfl | rfl
    · exact hsource
    · exact hedge
  have hv : edgeTrail.variables = [edgeSource] ++ labelledEdge :: [.fresh "N_1" .vertex] := rfl
  exact ⟨t', _, h, h', hlen, rfl, fetchOf_eq_of_run h h' hv hsame {}⟩

end Trail

end DocWalk
