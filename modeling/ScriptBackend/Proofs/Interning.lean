import ScriptBackend.Proofs.StringPool

/-!
# Interning is a scan for the first match

Whatever a pool was asked for before, interning a text answers with the first
entry that matches it and appends one only if none does. The indices shorten the
search and never change its answer, also when searches with and without regard to
case take turns.
-/

namespace ScriptBackend.StringPool

inductive Request where
  | intern (text : String) (caseSensitive tagged : Bool)
  | internInt (n : Int)
  | internFloat (x : Binary64)
  | reset
  deriving DecidableEq

def serve (p : StringPool) : Request → StringPool
  | .intern text caseSensitive tagged => (p.intern text caseSensitive tagged).2
  | .internInt n => (p.internInt n).2
  | .internFloat x => (p.internFloat x).2
  | .reset => empty

def after (p : StringPool) (requests : List Request) : StringPool := requests.foldl serve p

theorem serve_cases (p : StringPool) (h : request ≠ .reset) :
    ∃ text caseSensitive tagged, p.serve request = (p.intern text caseSensitive tagged).2 := by
  cases request with
  | intern text caseSensitive tagged => exact ⟨text, caseSensitive, tagged, rfl⟩
  | internInt n => exact ⟨toString n, true, false, rfl⟩
  | internFloat x => exact ⟨Decimal.general x, true, false, rfl⟩
  | reset => exact absurd rfl h

theorem Sound.serve (hp : Sound p) (request : Request) : Sound (p.serve request) := by
  by_cases hreset : request = .reset
  · subst hreset
    exact sound_empty
  · obtain ⟨text, caseSensitive, tagged, hserve⟩ := p.serve_cases hreset
    rw [hserve]
    exact hp.intern text caseSensitive tagged

theorem sound_after (requests : List Request) : Sound (empty.after requests) :=
  List.foldlRecOn (motive := Sound) requests serve sound_empty fun _ hp request _ => hp.serve request

-- ---------------------------------------------------------------------------
-- Matches
-- ---------------------------------------------------------------------------

structure Entry.Matches (e : Entry) (text : String) (caseSensitive tagged : Bool) : Prop where
  tagged : e.tagged = tagged
  text : if caseSensitive then e.text = text else Text.SameName e.text text

variable {text : String} {caseSensitive tagged : Bool}

theorem Entry.answers_iff {e : Entry} :
    e.answers text caseSensitive tagged = true ↔ e.Matches text caseSensitive tagged := by
  simp only [Entry.answers, Bool.and_eq_true, beq_iff_eq]
  constructor
  · rintro ⟨htag, htext⟩
    exact ⟨htag, by cases caseSensitive <;> simpa [agrees, Text.SameName] using htext⟩
  · rintro ⟨htag, htext⟩
    exact ⟨htag, by cases caseSensitive <;> simpa [agrees, Text.SameName] using htext⟩

instance (e : Entry) : Decidable (e.Matches text caseSensitive tagged) :=
  decidable_of_iff _ Entry.answers_iff

theorem Entry.matches_of_eq {e : Entry} (htag : e.tagged = tagged) (htext : e.text = text)
    (caseSensitive : Bool) : e.Matches text caseSensitive tagged := by
  subst htext
  exact ⟨htag, by cases caseSensitive <;> simp [Text.SameName]⟩

theorem Sound.intern_of_matches (hp : Sound p)
    (h : ∃ e ∈ p.entries.toList, e.Matches (cut text) caseSensitive tagged) :
    ∃ before e later, p.entries.toList = before ++ e :: later ∧
      e.Matches (cut text) caseSensitive tagged ∧
      (∀ f ∈ before, ¬ f.Matches (cut text) caseSensitive tagged) ∧
      p.intern text caseSensitive tagged = (e.start, p) := by
  cases hfind : p.entries.toList.find? (·.answers (cut text) caseSensitive tagged) with
  | none =>
    obtain ⟨e, he, hmatches⟩ := h
    exact absurd (Entry.answers_iff.mpr hmatches) (List.find?_eq_none.mp hfind e he)
  | some e =>
    obtain ⟨hanswers, before, later, hsplit, hbefore⟩ := List.find?_eq_some_iff_append.mp hfind
    refine ⟨before, e, later, hsplit, Entry.answers_iff.mp hanswers, ?_, ?_⟩
    · intro f hf hmatches
      simpa [Entry.answers_iff.mpr hmatches] using hbefore f hf
    · rw [hp.intern_eq, hfind]

theorem Sound.intern_of_no_match (hp : Sound p)
    (h : ∀ e ∈ p.entries.toList, ¬ e.Matches (cut text) caseSensitive tagged) :
    p.intern text caseSensitive tagged = (p.size, p.push (cut text) tagged) := by
  have hfind : p.entries.toList.find? (·.answers (cut text) caseSensitive tagged) = none :=
    List.find?_eq_none.mpr fun e he hanswers => h e he (Entry.answers_iff.mp hanswers)
  rw [hp.intern_eq, hfind]

-- ---------------------------------------------------------------------------
-- No entry twice
-- ---------------------------------------------------------------------------

/-- Entries of one tag flag have different texts. -/
def Distinct (p : StringPool) : Prop :=
  p.entries.toList.Pairwise fun e f => e.tagged = f.tagged → e.text ≠ f.text

theorem Sound.distinct_intern (hp : Sound p) (hd : p.Distinct) (text : String)
    (caseSensitive tagged : Bool) : (p.intern text caseSensitive tagged).2.Distinct := by
  by_cases h : ∃ e ∈ p.entries.toList, e.Matches (cut text) caseSensitive tagged
  · obtain ⟨_, _, _, -, -, -, hintern⟩ := hp.intern_of_matches h
    rw [hintern]
    exact hd
  · have hnone : ∀ e ∈ p.entries.toList, ¬ e.Matches (cut text) caseSensitive tagged :=
      fun e he hmatches => h ⟨e, he, hmatches⟩
    rw [hp.intern_of_no_match hnone]
    simp only [Distinct, StringPool.push, Array.toList_push, List.pairwise_append, List.mem_singleton]
    refine ⟨hd, List.pairwise_singleton _ _, ?_⟩
    rintro e he _ rfl htag htext
    exact hnone e he (Entry.matches_of_eq htag htext caseSensitive)

theorem Sound.distinct_serve (hp : Sound p) (hd : p.Distinct) (request : Request) :
    (p.serve request).Distinct := by
  by_cases hreset : request = .reset
  · subst hreset
    exact .nil
  · obtain ⟨text, caseSensitive, tagged, hserve⟩ := p.serve_cases hreset
    rw [hserve]
    exact hp.distinct_intern hd text caseSensitive tagged

theorem distinct_after (requests : List Request) : (empty.after requests).Distinct := by
  suffices hboth : Sound (empty.after requests) ∧ (empty.after requests).Distinct from hboth.2
  apply List.foldlRecOn (motive := fun p => Sound p ∧ p.Distinct)
  · exact ⟨sound_empty, .nil⟩
  · rintro p ⟨hp, hd⟩ request -
    exact ⟨hp.serve request, hp.distinct_serve hd request⟩

-- ---------------------------------------------------------------------------
-- Repeated requests
-- ---------------------------------------------------------------------------

theorem Sound.entries_after (hp : Sound p) (h : .reset ∉ requests) :
    Sound (p.after requests) ∧ p.entries.toList <+: (p.after requests).entries.toList := by
  induction requests generalizing p with
  | nil => exact ⟨hp, List.prefix_rfl⟩
  | cons request requests ih =>
    rw [List.mem_cons, not_or] at h
    obtain ⟨text, caseSensitive, tagged, hserve⟩ := p.serve_cases (Ne.symm h.1)
    have hafter : p.after (request :: requests) =
        (p.intern text caseSensitive tagged).2.after requests := by
      rw [after, List.foldl_cons, hserve]
      rfl
    obtain ⟨hsound, hprefix⟩ := ih (hp.intern text caseSensitive tagged) h.2
    rw [hafter]
    exact ⟨hsound, (hp.entries_prefix text caseSensitive tagged).trans hprefix⟩

theorem Sound.intern_again (hp : Sound p) (text : String) (caseSensitive tagged : Bool)
    (h : .reset ∉ requests) :
    (((p.intern text caseSensitive tagged).2.after requests).intern text caseSensitive tagged).1 =
      (p.intern text caseSensitive tagged).1 := by
  obtain ⟨e, he, hstart⟩ := hp.find?_intern text caseSensitive tagged
  obtain ⟨hsound, later, hlater⟩ := (hp.intern text caseSensitive tagged).entries_after h
  rw [hsound.intern_eq, ← hlater, List.find?_append, he, Option.some_or]
  exact hstart

/-- Whatever was asked of a pool before, interning a text answers with the first entry of the tag
flag that matches the part before its first NUL and changes nothing, or appends that part as one
entry at the end if none matches. So no entry is there twice, and until a reset the same request
has the same answer. -/
theorem intern_first_match (requests : List Request) (text : String) (caseSensitive tagged : Bool) :
    let p := empty.after requests
    let t := cut text
    ((∃ e ∈ p.entries.toList, e.Matches t caseSensitive tagged) →
      ∃ before e later, p.entries.toList = before ++ e :: later ∧
        e.Matches t caseSensitive tagged ∧
        (∀ f ∈ before, ¬ f.Matches t caseSensitive tagged) ∧
        p.intern text caseSensitive tagged = (e.start, p)) ∧
    ((∀ e ∈ p.entries.toList, ¬ e.Matches t caseSensitive tagged) →
      ∃ e q, p.intern text caseSensitive tagged = (p.size, q) ∧
        q.entries.toList = p.entries.toList ++ [e] ∧
        e.text = t ∧ e.tagged = tagged ∧ e.start = p.size ∧ q.size = p.size + e.size) ∧
    p.Distinct ∧
    ∀ later, .reset ∉ later →
      (((p.intern text caseSensitive tagged).2.after later).intern text caseSensitive tagged).1 =
        (p.intern text caseSensitive tagged).1 := by
  intro p t
  have hp : Sound p := sound_after requests
  refine ⟨hp.intern_of_matches, ?_, distinct_after requests, ?_⟩
  · intro hnone
    refine ⟨⟨t, p.size, reserved t tagged, tagged⟩, p.push t tagged, hp.intern_of_no_match hnone, ?_,
      rfl, rfl, rfl, rfl⟩
    exact Array.toList_push
  · intro later hlater
    exact hp.intern_again text caseSensitive tagged hlater

/-- Three spellings of one name, one of them tagged, with a number and a reset among them. -/
def sampleRequests : List Request :=
  [.internInt 7, .reset, .intern "Foo" true false, .intern "FOO\x00 bar" true false,
    .intern "foo" false true, .internFloat .one]

theorem sampleRequests_first_match :
    let p := empty.after sampleRequests
    ((∃ e ∈ p.entries.toList, e.Matches (cut "fOO") false false) ∧
      ∃ offset, p.intern "fOO" false false = (offset, p)) ∧
    ((∀ e ∈ p.entries.toList, ¬ e.Matches (cut "fOO") true false) ∧
      (p.intern "fOO" true false).1 = p.size) ∧
    p.Distinct ∧
    (((p.intern "fOO" true false).2.after [.intern "foo" false false]).intern "fOO" true false).1 =
      (p.intern "fOO" true false).1 := by
  intro p
  have hsome : ∃ e ∈ p.entries.toList, e.Matches (cut "fOO") false false := by decide +kernel
  have hnone : ∀ e ∈ p.entries.toList, ¬ e.Matches (cut "fOO") true false := by decide +kernel
  obtain ⟨hfirst, -, hdistinct, -⟩ := intern_first_match sampleRequests "fOO" false false
  obtain ⟨_, e, _, -, -, -, hfound⟩ := hfirst hsome
  obtain ⟨-, happend, -, hagain⟩ := intern_first_match sampleRequests "fOO" true false
  obtain ⟨_, _, hnew, -⟩ := happend hnone
  exact ⟨⟨hsome, e.start, hfound⟩, ⟨hnone, by rw [hnew]⟩, hdistinct, hagain _ (by decide)⟩

end ScriptBackend.StringPool
