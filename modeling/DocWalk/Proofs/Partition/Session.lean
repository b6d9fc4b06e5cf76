import Mathlib.Data.List.Induction
import DocWalk.Compiler
import DocWalk.Proofs.Fetch.Text

/-!
# The first text of a run

A session is asked for texts, for its plan, or to begin a new run, in any
order. Its plan narrows the first text that is made in each run and no other
one. A text that could not be made does not count.

## Implementation notes

The history of a session is what its callers see: the calls and their answers.
Whether the plan is still to be applied is said of the history alone, and
`Record.standing` ties it to the state that the session keeps.
-/

namespace DocWalk

section CompileText
variable {settings : CompilerSettings} {steps : List Step} {d : Dialect} {s : Session}

theorem compileText_fst :
    (compileText settings steps d s).1 =
      (compile settings steps >>= fun q => q.text d s.pending?) := by
  rw [compileText]
  split <;> simp_all

theorem compileText_snd_of_ok {text : String}
    (h : (compileText settings steps d s).1 = .ok text) :
    (compileText settings steps d s).2 = s.commit := by
  rw [compileText_fst] at h
  simp only [compileText, h]

theorem compileText_snd_of_error {e : CompileError}
    (h : (compileText settings steps d s).1 = .error e) :
    (compileText settings steps d s).2 = s := by
  rw [compileText_fst] at h
  simp only [compileText, h]

end CompileText

namespace Session

theorem plan_commit (s : Session) : s.commit.plan = s.plan := by
  rw [commit]
  split <;> rfl

theorem pending?_commit (s : Session) : s.commit.pending? = none := by
  rw [commit]
  split
  next => rfl
  next h => simpa using h

theorem plan_of_pending? {s : Session} {p : Plan} (h : s.pending? = some p) : s.plan = some p := by
  rw [pending?] at h
  split at h
  · cases h
  · exact h

/-- What a session can be asked. -/
inductive Call where
  | compile (settings : CompilerSettings) (steps : List Step) (d : Dialect)
  | take
  | commit
  | peek
  | reset

inductive Answer where
  | text (result : Except CompileError String)
  | plan (plan : Option Plan)
  | done

def call (s : Session) : Call → Answer × Session
  | .compile settings steps d =>
      (.text (compileText settings steps d s).1, (compileText settings steps d s).2)
  | .take => (.plan s.take.1, s.take.2)
  | .commit => (.done, s.commit)
  | .peek => (.plan s.pending?, s)
  | .reset => (.done, s.reset)

/-- The calls of a session with their answers, the oldest first. -/
abbrev History := List (Call × Answer)

/-- The calls after which the first fetch has been made. -/
inductive Spends : Call × Answer → Prop
  | compile (settings : CompilerSettings) (steps : List Step) (d : Dialect) (text : String) :
      Spends (.compile settings steps d, .text (.ok text))
  | take (answer : Answer) : Spends (.take, answer)
  | commit (answer : Answer) : Spends (.commit, answer)

/-- The calls whose answer has the plan in it: as a condition of the text, or as it is. -/
inductive Obtains (p : Plan) : Call × Answer → Prop
  | compile {settings : CompilerSettings} {steps : List Step} {d : Dialect} {q : Fetch}
      {text : String} (hq : DocWalk.compile settings steps = .ok q)
      (ht : q.render .documentDB (some p) = .ok text) :
      Obtains p (.compile settings steps d, .text (.ok text))
  | take : Obtains p (.take, .plan (some p))

theorem Obtains.spends {p : Plan} {e : Call × Answer} (h : Obtains p e) : Spends e := by
  cases h with
  | compile => exact .compile ..
  | take => exact .take _

/-- A new run was begun among these calls. -/
def Resets (h : History) : Prop :=
  ∃ answer, (Call.reset, answer) ∈ h

/-- The first fetch has not been made since the beginning of the run. -/
def Unspent (h : History) : Prop :=
  ∀ before e after, h = before ++ e :: after → Spends e → Resets after

theorem unspent_nil : Unspent [] := by
  intro before e after h
  simp at h

theorem unspent_append_singleton {h : History} {e : Call × Answer} :
    Unspent (h ++ [e]) ↔ e.1 = .reset ∨ ¬ Spends e ∧ Unspent h := by
  constructor
  · intro hu
    by_cases hr : e.1 = .reset
    · exact Or.inl hr
    · refine Or.inr ⟨?_, ?_⟩
      · intro hs
        obtain ⟨_, hm⟩ := hu h e [] rfl hs
        cases hm
      · intro before e' after he hs
        obtain ⟨answer, hm⟩ := hu before e' (after ++ [e]) (by simp [he]) hs
        rcases List.mem_append.mp hm with hm | hm
        · exact ⟨answer, hm⟩
        · exact absurd (congrArg Prod.fst (List.mem_singleton.mp hm)).symm hr
  · intro hu before e' after he hs
    rcases append_singleton_eq_split he with ⟨_, _, rfl⟩ | ⟨after', rfl, he'⟩
    · -- a call that spends the plan is not the beginning of a run
      rcases hu with hr | ⟨hn, _⟩
      · cases hs <;> cases hr
      · exact absurd hs hn
    · rcases hu with hr | ⟨_, hu⟩
      · exact ⟨e.2, List.mem_append_right _ (by simp [← hr])⟩
      · obtain ⟨answer, hm⟩ := hu before e' after' he' hs
        exact ⟨answer, List.mem_append_left _ hm⟩

/-- What a call does to a session. -/
theorem call_cases (s : Session) (c : Call) :
    (c = .reset ∧ (s.call c).2 = s.reset) ∨
      (Spends (c, (s.call c).1) ∧ (s.call c).2 = s.commit) ∨
        (c ≠ .reset ∧ ¬ Spends (c, (s.call c).1) ∧ (s.call c).2 = s) := by
  cases c with
  | compile settings steps d =>
      cases h : (compileText settings steps d s).1 with
      | ok text =>
          refine Or.inr (Or.inl ⟨?_, compileText_snd_of_ok h⟩)
          rw [call, h]
          exact .compile ..
      | error e =>
          refine Or.inr (Or.inr ⟨nofun, ?_, compileText_snd_of_error h⟩)
          rw [call, h]
          nofun
  | take => exact Or.inr (Or.inl ⟨.take _, rfl⟩)
  | commit => exact Or.inr (Or.inl ⟨.commit _, rfl⟩)
  | peek => exact Or.inr (Or.inr ⟨nofun, nofun, rfl⟩)
  | reset => exact Or.inl ⟨rfl, rfl⟩

/-- Only a session whose plan is pending gives it away. -/
theorem pending?_of_obtains {s : Session} {c : Call} {p : Plan} (hp : s.plan = some p)
    (h : Obtains p (c, (s.call c).1)) : s.pending? = some p := by
  cases hn : s.pending? with
  | some p' =>
      rw [← hp, plan_of_pending? hn]
  | none =>
      exfalso
      generalize ha : (s.call c).1 = answer at h
      cases h with
      | @compile settings steps d q text hq ht =>
          injection ha with ha
          rw [compileText_fst, hq, hn] at ha
          exact Fetch.render_ne_of_narrowed ht (mapError_eq_ok_iff.mp ha)
      | take =>
          injection ha with ha
          rw [take, hn] at ha
          cases ha

/-- A session and its history. -/
structure Record where
  history : History
  session : Session

namespace Record

def call (r : Record) (c : Call) : Record :=
  ⟨r.history ++ [(c, (r.session.call c).1)], (r.session.call c).2⟩

/-- The calls made of a new session. -/
def ofCalls (p : Option Plan) (calls : List Call) : Record :=
  calls.foldl call ⟨[], ofPlan p⟩

theorem ofCalls_append_singleton (p : Option Plan) (calls : List Call) (c : Call) :
    ofCalls p (calls ++ [c]) = (ofCalls p calls).call c := by
  rw [ofCalls, List.foldl_append]
  rfl

/-- The session agrees with its history. -/
structure Standing (p : Option Plan) (r : Record) : Prop where
  plan_eq : r.session.plan = p
  pending_of_unspent : Unspent r.history → r.session.pending? = p
  spent : ¬ Unspent r.history → r.session.pending? = none

theorem Standing.call {p : Option Plan} {r : Record} (h : Standing p r) (c : Call) :
    Standing p (r.call c) := by
  rcases call_cases r.session c with ⟨rfl, hs⟩ | ⟨hspends, hs⟩ | ⟨hc, hspends, hs⟩
  · have hu : Unspent (r.call .reset).history := unspent_append_singleton.mpr (Or.inl rfl)
    exact ⟨h.plan_eq, fun _ => h.plan_eq, fun hn => absurd hu hn⟩
  · have hu : ¬ Unspent (r.call c).history := by
      intro hu
      rcases unspent_append_singleton.mp hu with hr | ⟨hn, _⟩
      · cases hr
        cases hspends
      · exact hn hspends
    refine ⟨?_, fun hn => absurd hn hu, fun _ => ?_⟩
    · rw [Record.call, hs, plan_commit, h.plan_eq]
    · rw [Record.call, hs, pending?_commit]
  · have hu : Unspent (r.call c).history ↔ Unspent r.history :=
      unspent_append_singleton.trans
        ⟨fun hu => hu.elim (absurd · hc) And.right, fun hu => Or.inr ⟨hspends, hu⟩⟩
    have hsession : (r.call c).session = r.session := hs
    refine ⟨?_, ?_, ?_⟩
    · rw [hsession, h.plan_eq]
    · rw [hsession, hu]
      exact h.pending_of_unspent
    · rw [hsession, hu]
      exact h.spent

theorem standing (p : Option Plan) (calls : List Call) : Standing p (ofCalls p calls) := by
  induction calls using List.reverseRecOn with
  | nil => exact ⟨rfl, fun _ => rfl, fun hn => absurd unspent_nil hn⟩
  | append_singleton calls c ih =>
      rw [ofCalls_append_singleton]
      exact ih.call c

/-- Each entry of a history is a call of the session as the entries before have left it. -/
theorem exists_of_history_eq {p : Option Plan} {calls : List Call} {before after : History}
    {e : Call × Answer} (h : (ofCalls p calls).history = before ++ e :: after) :
    ∃ earlier, (ofCalls p earlier).history = before ∧
      e.2 = ((ofCalls p earlier).session.call e.1).1 := by
  induction calls using List.reverseRecOn generalizing after with
  | nil => simp [ofCalls] at h
  | append_singleton calls c ih =>
      rw [ofCalls_append_singleton, call] at h
      rcases append_singleton_eq_split h with ⟨_, hb, rfl⟩ | ⟨after', _, h'⟩
      · exact ⟨calls, hb.symm, rfl⟩
      · exact ih h'

/-- Once the plan was obtained, it is not obtained again in the same run. -/
theorem resets_of_obtains {p : Plan} {calls : List Call} {before between after : History}
    {e f : Call × Answer}
    (h : (ofCalls (some p) calls).history = before ++ e :: (between ++ f :: after))
    (he : Obtains p e) (hf : Obtains p f) : Resets between := by
  have h' : (ofCalls (some p) calls).history = (before ++ e :: between) ++ f :: after := by
    simpa using h
  obtain ⟨earlier, hearlier, hanswer⟩ := exists_of_history_eq h'
  have hstanding := standing (some p) earlier
  obtain ⟨c, answer⟩ := f
  obtain rfl : answer = ((ofCalls (some p) earlier).session.call c).1 := hanswer
  have hpending := pending?_of_obtains hstanding.plan_eq hf
  -- the plan is still pending at the second call
  have hu : Unspent (before ++ e :: between) := by
    by_contra hn
    rw [← hearlier] at hn
    rw [hstanding.spent hn] at hpending
    cases hpending
  exact hu before e between rfl he.spends

/-- The plan of a session narrows the first text of each run and no other one. -/
structure NarrowsFirst (p : Option Plan) (r : Record) : Prop where
  plan_eq : r.session.plan = p
  unchanged : ∀ settings steps d e, (compileText settings steps d r.session).1 = .error e →
    (compileText settings steps d r.session).2 = r.session
  text_iff : ∀ settings steps d text, (compileText settings steps d r.session).1 = .ok text ↔
    ∃ q, compile settings steps = .ok q ∧
      (Unspent r.history ∧ q.render d p = .ok text ∨
        ¬ Unspent r.history ∧ q.render d none = .ok text)
  narrowed_iff : ∀ settings steps d q text, compile settings steps = .ok q →
    (compileText settings steps d r.session).1 = .ok text →
      ((∃ plan, p = some plan ∧ q.render .documentDB (some plan) = .ok text) ↔
        p ≠ none ∧ Unspent r.history)
  refused : p ≠ none → Unspent r.history → ∀ settings steps,
    ∃ e, (compileText settings steps .jsonServer r.session).1 = .error e
  once : ∀ plan, p = some plan → ∀ before e between f after,
    r.history = before ++ e :: (between ++ f :: after) →
      Obtains plan e → Obtains plan f → Resets between

namespace Standing

variable {p : Option Plan} {r : Record} {settings : CompilerSettings} {steps : List Step}
variable {d : Dialect} {text : String}

theorem text_iff (h : Standing p r) :
    (compileText settings steps d r.session).1 = .ok text ↔
      ∃ q, compile settings steps = .ok q ∧
        (Unspent r.history ∧ q.render d p = .ok text ∨
          ¬ Unspent r.history ∧ q.render d none = .ok text) := by
  simp only [compileText_fst, bind_eq_ok_iff, Fetch.text, mapError_eq_ok_iff]
  by_cases hu : Unspent r.history
  · simp [h.pending_of_unspent hu, hu]
  · simp [h.spent hu, hu]

theorem narrowed_iff (h : Standing p r) {q : Fetch} (hq : compile settings steps = .ok q)
    (ht : (compileText settings steps d r.session).1 = .ok text) :
    (∃ plan, p = some plan ∧ q.render .documentDB (some plan) = .ok text) ↔
      p ≠ none ∧ Unspent r.history := by
  obtain ⟨q', hq', hcases⟩ := h.text_iff.mp ht
  cases hq.symm.trans hq'
  constructor
  · rintro ⟨plan, rfl, hn⟩
    rcases hcases with ⟨hu, _⟩ | ⟨_, hwhole⟩
    · exact ⟨nofun, hu⟩
    · exact absurd hwhole (Fetch.render_ne_of_narrowed hn)
  · rintro ⟨hp, hu⟩
    obtain ⟨plan, rfl⟩ := Option.ne_none_iff_exists'.mp hp
    rcases hcases with ⟨_, hr⟩ | ⟨hn, _⟩
    · refine ⟨plan, rfl, ?_⟩
      cases d with
      | documentDB => exact hr
      | jsonServer => cases (Fetch.render_jsonServer_iff.mp hr).1
    · exact absurd hu hn

theorem refused (h : Standing p r) (hp : p ≠ none) (hu : Unspent r.history) :
    ∃ e, (compileText settings steps .jsonServer r.session).1 = .error e := by
  cases hr : (compileText settings steps .jsonServer r.session).1 with
  | error e => exact ⟨e, rfl⟩
  | ok text =>
      obtain ⟨q, _, ⟨_, ht⟩ | ⟨hn, _⟩⟩ := h.text_iff.mp hr
      · exact absurd (Fetch.render_jsonServer_iff.mp ht).1 hp
      · exact absurd hu hn

end Standing

/-- Over every sequence of calls, the plan is applied to the first text of a run, whether or not
others have failed before it. -/
theorem ofCalls_narrowsFirst (p : Option Plan) (calls : List Call) :
    NarrowsFirst p (ofCalls p calls) where
  plan_eq := (standing p calls).plan_eq
  unchanged _ _ _ _ h := compileText_snd_of_error h
  text_iff _ _ _ _ := (standing p calls).text_iff
  narrowed_iff _ _ _ _ _ hq ht := (standing p calls).narrowed_iff hq ht
  refused hp hu _ _ := (standing p calls).refused hp hu
  once := by
    rintro plan rfl before e between f after h he hf
    exact resets_of_obtains h he hf

/-- The letters before the middle one, by name. -/
def firstHalf : Plan :=
  ⟨"name", .between "a" "m" .includeLeft⟩

/-- A text that fails and is made in the other dialect; then a new run. -/
def retried : List Call :=
  [.compile { collection := some "people" } [.vertices []] .jsonServer,
    .compile { collection := some "people" } [.vertices []] .documentDB, .reset, .take]

theorem ofCalls_narrowsFirst_retried :
    ∃ before e between f after,
      (ofCalls (some firstHalf) retried).history = before ++ e :: (between ++ f :: after) ∧
        Obtains firstHalf e ∧ Obtains firstHalf f ∧ Resets between := by
  obtain ⟨q, text, hq, ht⟩ : ∃ q text,
      compile { collection := some "people" } [.vertices []] = .ok q ∧
        q.render .documentDB (some firstHalf) = .ok text := ⟨_, _, rfl, rfl⟩
  have hcompiled : (compileText { collection := some "people" } [.vertices []] .documentDB
      (ofPlan (some firstHalf))).1 = .ok text := by
    rw [compileText_fst, hq]
    exact mapError_eq_ok_iff.mpr ht
  have hrefused : (compileText { collection := some "people" } [.vertices []] .jsonServer
      (ofPlan (some firstHalf))).1 =
        .error (.render (.partitionUnsupported .jsonServer)) := rfl
  have hhistory : (ofCalls (some firstHalf) retried).history =
      [(.compile { collection := some "people" } [.vertices []] .jsonServer,
        .text (.error (.render (.partitionUnsupported .jsonServer))))] ++
      (.compile { collection := some "people" } [.vertices []] .documentDB, .text (.ok text)) ::
        ([(.reset, .done)] ++ (.take, .plan (some firstHalf)) :: []) := by
    simp only [ofCalls, retried, List.foldl_cons, List.foldl_nil, call, Session.call,
      compileText_snd_of_error hrefused, compileText_snd_of_ok hcompiled, hrefused, hcompiled]
    rfl
  exact ⟨_, _, _, _, _, hhistory, .compile hq ht, .take,
    (ofCalls_narrowsFirst (some firstHalf) retried).once firstHalf rfl _ _ _ _ _ hhistory
      (.compile hq ht) .take⟩

end Record

end Session

end DocWalk
