import DocWalk.Proofs.Fetch.Stability

/-!
# The fetch of the current variable

The current variable can be fetched as the end of the trail or by its name. By
name, only filters of variables that were bound up to it matter. At the end of
the trail every filter does, and a trail can have gone back to a variable that
was bound early. The two fetches read the same, since what is read for a
variable was bound up to it. The one at the end of the trail is therefore the
one by name, unless a variable that was bound later has a filter.
-/

namespace DocWalk

namespace Fetch

/-- The vertex and the edge of a fetch are part of it. -/
def Involves (q : Fetch) (name : String) : Prop :=
  q.node = some name ∨ q.edge = some name

theorem involves_ofReading_iff {settings : CompilerSettings} {r : Reading} {target name : String} :
    (ofReading settings r target).Involves name ↔ r.covers name = true := by
  rw [Involves, ofReading_eq]
  obtain ⟨vertex, edge⟩ := r
  cases edge <;> simp [Reading.covers, Reading.members]

end Fetch

namespace Trail

/-- The first variable with a filter among those that were bound after the given one. -/
def FirstFilteredAfter (t : Trail) (name : String) (w : Variable) : Prop :=
  ∃ before v between after, t.variables = before ++ v :: (between ++ w :: after) ∧
    v.alias = name ∧ (∀ u ∈ between, u.filter = none) ∧ w.filter.isSome = true

/-- A fetch, unless one of the given variables has a filter. -/
def unlessFiltered (target : String) (later : List Variable) (q : Fetch) :
    Except TraversalError Fetch :=
  match later.find? (·.filter.isSome) with
  | some w => .error (.strayFilter w.alias target)
  | none => .ok q

section Order

variable {t : Trail} (ht : t.Layout) {before after : List Variable} {v : Variable}
variable (hv : t.variables = before ++ v :: after) {settings : CompilerSettings} {r : Reading}

include ht hv

/-- What is read for a variable was bound up to it. -/
theorem Layout.members_before (h : t.Reads settings v r) : ∀ w ∈ r.members, w ∈ before ++ [v] := by
  cases h with
  | alone hk hl => simp [Reading.members]
  | @reached edge l d field hk hl hs he hn hd hf =>
      obtain ⟨edge', hb, he'⟩ := ht.edge_before hv hl hs
      have hsame : edge' = edge := ht.eq_of_alias_eq (by simp [hv, hb]) he (he'.trans hn.symm)
      simp [Reading.members, ← hsame, hb]
  | @edge source l d field hk hl he hs hn hf =>
      obtain ⟨source', hb, hs'⟩ := ht.source_before hv hl he
      have hsame : source' = source := ht.eq_of_alias_eq (by simp [hv, hb]) hs (hs'.trans hn.symm)
      simp [Reading.members, ← hsame, hb]

/-- Nothing that was bound later is read. -/
theorem Layout.covers_eq_false (h : t.Reads settings v r) :
    ∀ w ∈ after, r.covers w.alias = false := by
  have hn : (t.variables.map (·.alias)).Nodup := t.aliases_eq ▸ ht.nodup
  rw [hv, List.append_cons, List.map_append, List.nodup_append] at hn
  intro w hw
  apply List.any_eq_false.mpr
  intro u hu
  have hu' := List.mem_map_of_mem (f := (·.alias)) (ht.members_before hv h u hu)
  have hne := hn.2.2 _ hu' _ (List.mem_map_of_mem hw)
  simpa using hne

/-- Where no filter is left out up to a variable, one is left out when a later variable has one. -/
theorem Layout.fetchFrom_eq (h : t.Reads settings v r) (target : String) :
    fetchFrom settings t.variables target r =
      fetchFrom settings (before ++ [v]) target r >>= unlessFiltered target after := by
  have hlater : stray? after r = after.find? (·.filter.isSome) := by
    rw [stray?, ← List.head?_filter, ← List.head?_filter]
    apply congrArg List.head?
    apply List.filter_congr
    intro w hw
    rw [ht.covers_eq_false hv h w hw, Bool.not_false, Bool.and_true]
  rw [hv, List.append_cons, fetchFrom, fetchFrom, stray?, List.find?_append, ← stray?, ← stray?,
    hlater]
  cases stray? (before ++ [v]) r with
  | some w => rfl
  | none => rfl

/-- The fetch at the end of a trail is that of the current variable by name, unless a variable
that was bound later has a filter. -/
theorem Layout.fetch_eq (hc : t.current = some v.alias) (settings : CompilerSettings) :
    t.fetch settings = t.fetchOf settings v.alias >>= unlessFiltered v.alias after := by
  have hcurrent : t.currentVariable? = some v := by
    rw [currentVariable?, hc]
    exact ht.find?_of_mem (by simp [hv])
  have hfetch : t.fetch settings = t.fetchWithin settings t.variables v := by
    rw [fetch, require_of_current hcurrent]
    rfl
  rw [hfetch, ht.fetchOf_eq_fetchWithin hv, fetchWithin_eq, fetchWithin_eq]
  cases hr : t.reading settings v with
  | error e => rfl
  | ok r => exact ht.fetchFrom_eq hv (reads_of_reading hr) v.alias

/-- A fetch by name involves nothing that was bound later. -/
theorem Layout.not_involves_later {q : Fetch} (h : t.fetchOf settings v.alias = .ok q) :
    ∀ w ∈ after, ¬ q.Involves w.alias := by
  rw [ht.fetchOf_eq_fetchWithin hv] at h
  obtain ⟨r, hr, _, rfl⟩ := fetchWithin_eq_ok h
  intro w hw
  rw [Fetch.involves_ofReading_iff, ht.covers_eq_false hv hr w hw]
  exact Bool.false_ne_true

/-- The alias tells which variables were bound later. -/
theorem Layout.firstFilteredAfter_iff {w : Variable} :
    t.FirstFilteredAfter v.alias w ↔ after.find? (·.filter.isSome) = some w := by
  rw [List.find?_eq_some_iff_append]
  constructor
  · rintro ⟨before', v', between, rest, hv', ha, hb, hf⟩
    have hscope : before ++ [v] = before' ++ [v'] := by
      rw [← ht.scopeOf_eq hv, ← ht.scopeOf_eq hv', ha]
    have hlater : after = between ++ w :: rest := by
      rw [hv, List.append_cons, List.append_cons before', hscope] at hv'
      exact List.append_cancel_left hv'
    exact ⟨hf, between, rest, hlater, by simpa using hb⟩
  · rintro ⟨hf, between, rest, rfl, hb⟩
    exact ⟨before, v, between, rest, hv, rfl, by simpa using hb, hf⟩

end Order

theorem unlessFiltered_eq_error_iff {target : String} {later : List Variable} {q : Fetch}
    {e : TraversalError} :
    unlessFiltered target later q = .error e ↔
      ∃ w, later.find? (·.filter.isSome) = some w ∧ e = .strayFilter w.alias target := by
  rw [unlessFiltered]
  cases later.find? (·.filter.isSome) with
  | none => simp
  | some w => simp [eq_comm]

theorem unlessFiltered_eq_ok {target : String} {later : List Variable} {q q' : Fetch}
    (h : unlessFiltered target later q = .ok q') : q = q' := by
  rw [unlessFiltered] at h
  split at h
  next => cases h
  next => exact Except.ok.inj h

/-- The two fetches of the current variable of a traversal agree. Where there is none by name, there
is none at the end of the trail, for the same reason, and one at the end of the trail is the one
by name. Where there is one by name alone, the first filter of a later variable is the reason, and
that variable is not part of the fetch. -/
theorem fetch_agrees_with_fetchOf {steps : List Step} {t : Trail}
    (h : empty.run steps = .ok t) {name : String} (hc : t.current = some name)
    (settings : CompilerSettings) :
    (∀ e, t.fetchOf settings name = .error e → t.fetch settings = .error e) ∧
      (∀ q, t.fetch settings = .ok q → t.fetchOf settings name = .ok q) ∧
      ∀ q, t.fetchOf settings name = .ok q → ∀ e, t.fetch settings = .error e ↔
        ∃ w, t.FirstFilteredAfter name w ∧ ¬ q.Involves w.alias ∧
          e = .strayFilter w.alias name := by
  have ht := empty_wellFormed.run h
  obtain ⟨v, hv, rfl⟩ := List.mem_map.mp (t.aliases_eq ▸ ht.current_mem name hc)
  obtain ⟨before, after, hsplit⟩ := List.append_of_mem hv
  have heq := ht.fetch_eq hsplit hc settings
  refine ⟨?_, ?_, ?_⟩
  · intro e he
    rw [heq, he]
    rfl
  · intro q hq
    rw [heq] at hq
    obtain ⟨q', hq', hunless⟩ := bind_eq_ok_iff.mp hq
    rw [hq', unlessFiltered_eq_ok hunless]
  · intro q hq e
    rw [heq, hq]
    change unlessFiltered v.alias after q = .error e ↔ _
    simp only [unlessFiltered_eq_error_iff, ht.firstFilteredAfter_iff hsplit]
    constructor
    · rintro ⟨w, hw, rfl⟩
      have hmem : w ∈ after := List.mem_of_find?_eq_some hw
      exact ⟨w, hw, ht.not_involves_later hsplit hq w hmem, rfl⟩
    · rintro ⟨w, hw, _, rfl⟩
      exact ⟨w, hw, rfl⟩

/-- Out over an edge and back, twice, and only the second edge has a filter. -/
def outAndBack : List Step :=
  [.vertices ["1"], .hopToEdge .outgoing [], .toEnd .start, .hopToEdge .outgoing ["knows"],
    .toEnd .start]

theorem fetch_agrees_with_fetchOf_outAndBack :
    ∃ t q w, empty.run outAndBack = .ok t ∧ t.current = some "N_0" ∧
      t.fetchOf {} "N_0" = .ok q ∧ t.fetch {} = .error (.strayFilter "E_1" "N_0") ∧
      t.FirstFilteredAfter "N_0" w ∧ w.alias = "E_1" ∧ ¬ q.Involves "E_1" := by
  obtain ⟨t, q, h, hc, hq, hfetch⟩ : ∃ t q, empty.run outAndBack = .ok t ∧
      t.current = some "N_0" ∧ t.fetchOf {} "N_0" = .ok q ∧
      t.fetch {} = .error (.strayFilter "E_1" "N_0") := ⟨_, _, rfl, rfl, rfl, rfl⟩
  obtain ⟨w, hw, hq', he⟩ := ((fetch_agrees_with_fetchOf h hc {}).2.2 q hq _).mp hfetch
  obtain ⟨ha, _⟩ := TraversalError.strayFilter.inj he
  exact ⟨t, q, w, h, hc, hq, hfetch, hw, ha.symm, ha ▸ hq'⟩

end Trail

end DocWalk
