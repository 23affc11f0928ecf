import ScriptBackend.Proofs.Code.Loops
import ScriptBackend.Proofs.History
import ScriptBackend.Proofs.Wire

/-!
# What becomes of a fixup

The lists of a buffer are what the calls since it was last empty ask for, and a
word that was emitted for a loop's target ends up in the flat code as that target,
or as its placeholder if the loop was never closed.
-/

namespace ScriptBackend

namespace CodeBuffer

-- ---------------------------------------------------------------------------
-- Closing calls
-- ---------------------------------------------------------------------------

theorem Call.closes_of_nesting_lt {c : Call} (h : c.nesting depth < depth) :
    ∃ points answer, c = ⟨.closeLoop points, .ok answer⟩ := by
  unfold nesting at h
  split at h
  · omega
  · exact ⟨_, _, rfl⟩
  · omega

theorem nesting_take_succ {calls : List Call} (h : calls[j]? = some c) :
    nesting (calls.take (j + 1)) = c.nesting (nesting (calls.take j)) := by
  rw [List.take_add_one, h]
  exact nesting_append _ c

theorem closer?_eq_some (hx : x ∈ added calls) (hj : x.closer? calls = some j) :
    x.index < j ∧ 0 < x.depth ∧
      ∃ points answer, calls[j]? = some ⟨.closeLoop points, .ok answer⟩ := by
  obtain ⟨hdepth, cx, hcx, hfixup⟩ := mem_added.mp hx
  obtain ⟨hfirst, hmem, hbefore⟩ := List.find?_range_eq_some.mp hj
  obtain ⟨hindex, hfewer⟩ : x.index < j ∧ nesting (calls.take (j + 1)) < x.depth := by
    simpa using hfirst
  have hlt : j < calls.length := List.mem_range.mp hmem
  have hget : calls[j]? = some calls[j] := List.getElem?_eq_getElem hlt
  -- no call from the fixup to here has left fewer loops open
  have hopen : x.depth ≤ nesting (calls.take j) := by
    rcases Nat.lt_or_eq_of_le (Nat.succ_le_of_lt hindex) with hlater | hnext
    · have := hbefore (j - 1) (by omega)
      rw [Nat.sub_add_cancel (by omega)] at this
      simp only [Bool.not_eq_true', decide_eq_false_iff_not, not_and, Nat.not_lt] at this
      exact this (by omega)
    · apply Nat.le_of_eq
      rw [← hnext, Nat.succ_eq_add_one, nesting_take_succ hcx, Call.nesting_of_fixup hfixup, hdepth]
  rw [nesting_take_succ hget] at hfewer
  obtain ⟨points, answer, hclose⟩ := Call.closes_of_nesting_lt (Nat.lt_of_lt_of_le hfewer hopen)
  exact ⟨hindex, Nat.lt_of_le_of_lt (Nat.zero_le _) hfewer, points, answer, by rw [hget, hclose]⟩

theorem added_unique (hx : x ∈ added calls) (hy : y ∈ added calls) (h : x.index = y.index) :
    x = y := by
  obtain ⟨hxdepth, c, hc, hxfixup⟩ := mem_added.mp hx
  obtain ⟨hydepth, c', hc', hyfixup⟩ := mem_added.mp hy
  obtain ⟨i, depth, f⟩ := x
  obtain ⟨i', depth', f'⟩ := y
  dsimp only at *
  subst h
  obtain rfl : c = c' := Option.some.inj (hc.symm.trans hc')
  obtain rfl : f = f' := Option.some.inj (hxfixup.symm.trans hyfixup)
  rw [hxdepth, hydepth]

-- ---------------------------------------------------------------------------
-- Words of fixups
-- ---------------------------------------------------------------------------

namespace Call

def span? : Call → Option Span
  | ⟨_, .ok (.span s)⟩ => some s
  | _ => none

def stored? : Call → Option Span
  | ⟨.store s _, _⟩ => some s
  | _ => none

theorem span?_eq_some {c : Call} : c.span? = some s ↔ c.answer = .ok (.span s) := by
  unfold span?
  split
  · simp
  · rename_i h
    constructor
    · intro hs
      cases hs
    · intro hs
      exact absurd (congrArg (Call.mk c.op) hs) (h c.op s)

def named? : Call → Option UInt32
  | ⟨.patch address _, .ok _⟩ => some address
  | c => c.fixup?.map (·.address)

end Call

/-- Every store goes to a span that was handed out before, since the last reset. -/
def OwnSpans (calls : List Call) : Prop :=
  ∀ x ∈ calls.zipIdx, ∀ s ∈ x.1.stored?, ∃ c ∈ calls.take x.2, c.span? = some s

instance (calls : List Call) : Decidable (OwnSpans calls) :=
  inferInstanceAs (Decidable (∀ x ∈ calls.zipIdx, ∀ s ∈ x.1.stored?,
    ∃ c ∈ calls.take x.2, c.span? = some s))

theorem OwnSpans.of_append (h : OwnSpans (calls ++ [c])) :
    OwnSpans calls ∧ ∀ s, c.stored? = some s → ∃ c' ∈ calls, c'.span? = some s := by
  constructor
  · rintro ⟨x, i⟩ hx s hs
    have hi : i < calls.length := lt_of_getElem?_eq_some (List.mem_zipIdx_iff_getElem?.mp hx)
    have hfound := h (x, i) (by rw [List.zipIdx_append]; exact List.mem_append_left _ hx) s hs
    rwa [List.take_append_of_le_length (Nat.le_of_lt hi)] at hfound
  · intro s hs
    have hfound := h (c, calls.length) (by simp [List.zipIdx_append]) s hs
    rwa [List.take_left] at hfound

/-- Spans lie in the contents, and the word of a fixup lies outside of all of them. -/
structure Laid (calls : List Call) (b : CodeBuffer) : Prop where
  spans : ∀ c ∈ calls, ∀ s, c.span? = some s → ∃ i, Covers b s i
  words : ∀ c ∈ calls, ∀ target address, c = ⟨.emitFixup target, .ok (.address address)⟩ →
    ∃ n, address = UInt32.ofNat n ∧ b.contents[n]? = some target.placeholder ∧
      ∀ c' ∈ calls, ∀ s i, c'.span? = some s → Covers b s i → n < i ∨ i + s.length ≤ n

theorem laid_nil (b : CodeBuffer) : Laid [] b :=
  ⟨fun _ hc => (nomatch hc), fun _ hc => (nomatch hc)⟩

theorem Tidy.apply_eq_span (hb : Tidy b) (h : (b.apply op).1 = .ok (.span s)) :
    Covers (b.apply op).2 s b.contents.length := by
  rcases hb.apply_eq op with ⟨e, happly⟩ | ⟨hcap, happly⟩ <;> rw [happly] at h ⊢
  · cases h
  cases op with
  | allocate size =>
    cases h
    exact hb.covers_allocate (hcap size rfl)
  | store span words =>
    simp only [run] at h
    split at h <;> cases h
  | closeLoop points =>
    simp only [run] at h
    split at h <;> cases h
  | _ => cases h

theorem Tidy.apply_emitFixup (hb : Tidy b)
    (h : (b.apply (.emitFixup target)).1 = .ok (.address address)) :
    address = UInt32.ofNat b.contents.length ∧
      (b.apply (.emitFixup target)).2.contents = b.contents ++ [target.placeholder] := by
  rcases hb.apply_eq (.emitFixup target) with ⟨e, happly⟩ | ⟨hcap, happly⟩ <;> rw [happly] at h ⊢
  · cases h
  · cases h
    exact ⟨hb.position, hb.contents_emitWords (hcap 1 rfl)⟩

theorem Covers.contents_apply_store (h : Covers b s i) (hn : n < i ∨ i + s.length ≤ n) :
    (b.apply (.store s ws)).2.contents[n]? = b.contents[n]? := by
  have happly : b.apply (.store s ws) = b.run (.store s ws) := rfl
  rw [happly]
  simp only [run]
  split
  · rename_i hstore
    obtain ⟨hlen, rfl⟩ := store?_eq_some hstore
    rw [h.contents_store hlen, if_neg (by omega)]
  · rfl

theorem Laid.apply (hb : Tidy b) (h : Laid calls b) (hop : op ≠ .reset)
    (hown : OwnSpans (calls ++ [⟨op, (b.apply op).1⟩])) :
    Laid (calls ++ [⟨op, (b.apply op).1⟩]) (b.apply op).2 := by
  have hold : ∀ c ∈ calls, ∀ s i, c.span? = some s → Covers (b.apply op).2 s i → Covers b s i := by
    intro c hc s i hs hi
    obtain ⟨j, hj⟩ := h.spans c hc s hs
    rwa [hi.unique (hj.apply hb hop)]
  have hlast : ∀ s, Call.span? ⟨op, (b.apply op).1⟩ = some s →
      Covers (b.apply op).2 s b.contents.length := by
    intro s hs
    exact hb.apply_eq_span (Call.span?_eq_some.mp hs)
  constructor
  · intro c hc s hs
    rcases List.mem_append.mp hc with hc | hc
    · obtain ⟨i, hi⟩ := h.spans c hc s hs
      exact ⟨i, hi.apply hb hop⟩
    · rw [List.mem_singleton.mp hc] at hs
      exact ⟨_, hlast s hs⟩
  · intro c hc target address hcall
    rcases List.mem_append.mp hc with hc | hc
    · obtain ⟨n, haddress, hword, hspared⟩ := h.words c hc target address hcall
      have hn : n < b.contents.length := lt_of_getElem?_eq_some hword
      refine ⟨n, haddress, ?_, ?_⟩
      · -- only a store could reach the word, and it keeps to a span that spares it
        by_cases hstore : ∃ s ws, op = .store s ws
        · obtain ⟨s, ws, rfl⟩ := hstore
          obtain ⟨c', hc', hs⟩ := hown.of_append.2 s rfl
          obtain ⟨i, hi⟩ := h.spans c' hc' s hs
          rw [hi.contents_apply_store (hspared c' hc' s i hs hi), hword]
        · rw [hb.contents_apply hop (fun s ws h => hstore ⟨s, ws, h⟩) hn, hword]
      · -- a span handed out now begins behind the word
        intro c' hc' s i hs hi
        rcases List.mem_append.mp hc' with hc' | hc'
        · exact hspared c' hc' s i hs (hold c' hc' s i hs hi)
        · rw [List.mem_singleton.mp hc'] at hs
          rw [hi.unique (hlast s hs)]
          exact .inl hn
    · obtain ⟨rfl, hanswer⟩ : op = .emitFixup target ∧ (b.apply op).1 = .ok (.address address) := by
        rw [List.mem_singleton.mp hc] at hcall
        injection hcall with hop hanswer
        exact ⟨hop, hanswer⟩
      obtain ⟨haddress, hcontents⟩ := hb.apply_emitFixup hanswer
      refine ⟨b.contents.length, haddress, ?_, ?_⟩
      · rw [hcontents, List.getElem?_concat_length]
      · intro c' hc' s i hs hi
        rcases List.mem_append.mp hc' with hc' | hc'
        · exact .inr (hold c' hc' s i hs hi).le
        · rw [List.mem_singleton.mp hc', hanswer] at hs
          cases hs

-- ---------------------------------------------------------------------------
-- Flat code
-- ---------------------------------------------------------------------------

def Call.points? : Call → Option LoopPoints
  | ⟨.closeLoop points, .ok _⟩ => some points
  | _ => none

namespace Added

/-- The target of a fixup in the loop in which it was added, once that is closed. -/
def target? (x : Added) (calls : List Call) : Option Word :=
  (x.closer? calls >>= (calls[·]?) >>= Call.points?).map (·.get x.fixup.target)

def Emitted (x : Added) (calls : List Call) : Prop :=
  calls[x.index]?.map (·.op) = some (.emitFixup x.fixup.target)

instance (x : Added) (calls : List Call) : Decidable (x.Emitted calls) :=
  inferInstanceAs (Decidable (_ = _))

/-- No other call names the address of the fixup in a patch or a fixup. -/
def Alone (x : Added) (calls : List Call) : Prop :=
  ∀ y ∈ calls.zipIdx, y.1.named? = some x.fixup.address → y.2 = x.index

instance (x : Added) (calls : List Call) : Decidable (x.Alone calls) :=
  inferInstanceAs (Decidable (∀ y ∈ calls.zipIdx, _ → _))

theorem Alone.index_eq {x : Added} (h : x.Alone calls) (hc : calls[j]? = some c)
    (hname : c.named? = some x.fixup.address) : j = x.index :=
  h (c, j) (List.mem_zipIdx_iff_getElem?.mpr hc) hname

end Added

theorem named?_of_fixup {c : Call} (h : c.fixup? = some f) : c.named? = some f.address := by
  unfold Call.named?
  split
  · cases h
  · rw [h]
    rfl

theorem answer_of_emitFixup (h : Call.fixup? ⟨.emitFixup target, answer⟩ = some f) :
    answer = .ok (.address f.address) := by
  cases answer with
  | error e => cases h
  | ok a =>
    cases a with
    | address address =>
      cases h
      rfl
    | _ => cases h

theorem mem_patchesOf : p ∈ patchesOf calls ↔
    ∃ (j : Nat) (c : Call), calls[j]? = some c ∧ p ∈ c.patches (closedBy calls j) := by
  simp only [patchesOf, List.mem_flatMap, Prod.exists, List.mem_zipIdx_iff_getElem?]
  constructor
  · rintro ⟨c, j, hc, hp⟩
    exact ⟨j, c, hc, hp⟩
  · rintro ⟨j, c, hc, hp⟩
    exact ⟨c, j, hc, hp⟩

theorem Added.Alone.patch_eq {x : Added} (h : x.Alone calls) (hx : x ∈ added calls)
    (hp : p ∈ patchesOf calls) (haddress : p.address = x.fixup.address) :
    ∃ j points answer, x.closer? calls = some j ∧
      calls[j]? = some ⟨.closeLoop points, .ok answer⟩ ∧ p = x.fixup.patch points := by
  obtain ⟨-, cx, hcx, hfixup⟩ := mem_added.mp hx
  obtain ⟨j, c, hc, hp⟩ := mem_patchesOf.mp hp
  unfold Call.patches at hp
  split at hp
  · -- a patch of its own: its call is not the one that added the fixup
    obtain rfl := List.mem_singleton.mp hp
    obtain rfl := h.index_eq hc (congrArg some haddress)
    rw [hc] at hcx
    cases hcx
    cases hfixup
  · rename_i points answer
    obtain ⟨y, hy, rfl⟩ := List.mem_map.mp hp
    obtain ⟨hy, hcloser⟩ := List.mem_filter.mp hy
    obtain ⟨-, cy, hcy, hyfixup⟩ := mem_added.mp hy
    have hindex := h.index_eq hcy (by rw [named?_of_fixup hyfixup]; exact congrArg some haddress)
    obtain rfl := added_unique hy hx hindex
    exact ⟨j, points, answer, by simpa using hcloser, hc, rfl⟩
  · cases hp

theorem Added.Alone.patched? {x : Added} (h : x.Alone calls) (hx : x ∈ added calls) :
    CodeBuffer.patched? (patchesOf calls) x.fixup.address.toNat = x.target? calls := by
  cases hcloser : x.closer? calls with
  | none =>
    rw [Added.target?, hcloser]
    apply patched?_eq_none
    intro p hp haddress
    obtain ⟨j, -, -, hj, -⟩ := h.patch_eq hx hp (UInt32.toNat_inj.mp haddress)
    rw [hcloser] at hj
    cases hj
  | some j =>
    obtain ⟨-, -, points, answer, hclose⟩ := closer?_eq_some hx hcloser
    have hmem : x.fixup.patch points ∈ patchesOf calls := by
      refine mem_patchesOf.mpr ⟨j, _, hclose, ?_⟩
      exact List.mem_map_of_mem (List.mem_filter.mpr ⟨hx, by simpa using hcloser⟩)
    have hvalue : x.target? calls = some (points.get x.fixup.target) := by
      simp [Added.target?, hcloser, hclose, Call.points?]
    rw [hvalue]
    apply patched?_eq_some hmem
    intro q hq haddress
    obtain ⟨j', points', answer', hj', hclose', rfl⟩ := h.patch_eq hx hq (UInt32.toNat_inj.mp haddress)
    obtain rfl : j = j' := Option.some.inj (hcloser.symm.trans hj')
    rw [hclose] at hclose'
    cases hclose'
    rfl

theorem Laid.flat_word (hlaid : Laid calls b) (hb : Tidy b) (hnested : Nested calls b)
    (hlen : b.contents.length < 0x100000000) (hflat : b.flatten = .ok flat) (hx : x ∈ added calls)
    (hemitted : x.Emitted calls) (halone : x.Alone calls) :
    flat.code[x.fixup.address.toNat]? =
      some ((x.target? calls).getD x.fixup.target.placeholder) := by
  obtain ⟨-, c, hc, hfixup⟩ := mem_added.mp hx
  have hcall : c = ⟨.emitFixup x.fixup.target, .ok (.address x.fixup.address)⟩ := by
    obtain ⟨op, answer⟩ := c
    rw [Added.Emitted, hc] at hemitted
    obtain rfl : op = .emitFixup x.fixup.target := Option.some.inj hemitted
    rw [answer_of_emitFixup hfixup]
  obtain ⟨n, haddress, hword, -⟩ := hlaid.words c (List.mem_of_getElem? hc) _ _ hcall
  have hn : n < b.contents.length := lt_of_getElem?_eq_some hword
  have htoNat : x.fixup.address.toNat = n := by
    rw [haddress, UInt32.toNat_ofNat_of_lt' (Nat.lt_trans hn hlen)]
  obtain ⟨-, hwords⟩ := flatten_eq_ok hflat
  rw [hb.words_eq hlen] at hwords
  rw [hwords _ (htoNat ▸ hn), hnested.patches, halone.patched? hx, htoNat, hword]
  cases x.target? calls <;> rfl

-- ---------------------------------------------------------------------------
-- Histories
-- ---------------------------------------------------------------------------

def noteCall (b : CodeBuffer) (op : Op) : CodeBuffer × Option (List Call) :=
  ((b.apply op).2, if op = .reset then none else some [⟨op, (b.apply op).1⟩])

theorem log_noteCall (h : History CodeBuffer Call) (hop : op ≠ .reset) :
    (h.serve noteCall op).log = h.log ++ [⟨op, (h.state.apply op).1⟩] :=
  History.log_serve_of_some (if_neg hop)

structure Sound (h : History CodeBuffer Call) : Prop where
  tidy : h.state.Tidy
  nested : Nested h.log h.state
  laid : OwnSpans h.log → Laid h.log h.state

theorem sound_new (chunkWords : Nat) : Sound (.fresh (new chunkWords)) :=
  ⟨tidy_new chunkWords, nested_nil rfl rfl rfl, fun _ => laid_nil _⟩

theorem Sound.serve (hs : Sound h) (op : Op) : Sound (h.serve noteCall op) := by
  obtain ⟨htidy, hnested, hlaid⟩ := hs
  by_cases hop : op = .reset
  · subst hop
    exact ⟨htidy.reset, nested_nil rfl rfl rfl, fun _ => laid_nil _⟩
  · refine ⟨htidy.apply op, ?_, ?_⟩ <;> rw [log_noteCall h hop]
    · exact hnested.apply htidy hop
    · intro hown
      exact (hlaid hown.of_append.1).apply htidy hop hown

theorem sound_after (chunkWords : Nat) (ops : List Op) :
    Sound ((History.fresh (new chunkWords)).after noteCall ops) :=
  History.after_induction (sound_new chunkWords) (fun _ op hs => hs.serve op) ops

/-- Fixups follow the nesting of loops. -/
structure LoopDiscipline (calls : List Call) (b : CodeBuffer) : Prop where
  /-- A call that closes a loop turns the fixups added in it into patches, in order, and nothing
  but that and plain patches leaves any. -/
  patches : b.patches.toList = patchesOf calls
  closed : ∀ x ∈ added calls, ∀ j, x.closer? calls = some j →
    x.index < j ∧ 0 < x.depth ∧ ∃ points answer, calls[j]? = some ⟨.closeLoop points, .ok answer⟩
  pending : b.fixups.toList = (pending calls).map (·.fixup)
  count : b.fixups.size + (added calls).countP (fun x => (x.closer? calls).isSome) =
    (added calls).length
  refused : nesting calls = 0 → ∀ points,
    b.apply (.closeLoop points) = (.error (.internal .noOpenLoop), b)
  accepted : 0 < nesting calls → ∀ points, (b.apply (.closeLoop points)).1 = .ok .done
  inRange : ∀ start ∈ b.marks, start ≤ b.fixups.size

theorem mem_marksOf (h : start ∈ marksOf xs depth) : start ≤ xs.length := by
  induction depth with
  | zero => cases h
  | succ depth ih =>
    rcases List.mem_cons.mp h with rfl | h
    · exact List.countP_le_length
    · exact ih h

theorem length_pending (calls : List Call) :
    (pending calls).length + (added calls).countP (fun x => (x.closer? calls).isSome) =
      (added calls).length := by
  have hsplit := List.length_eq_countP_add_countP (fun x : Added => (x.closer? calls).isSome)
    (l := added calls)
  have hrest : (added calls).countP (fun x => ¬ (x.closer? calls).isSome) =
      (pending calls).length := by
    rw [pending, ← List.countP_eq_length_filter]
    apply List.countP_congr
    intro x _
    simp
  rw [hsplit, hrest, Nat.add_comm]

theorem Nested.discipline (h : Nested calls b) : LoopDiscipline calls b where
  patches := h.patches
  closed x hx j hj := closer?_eq_some hx hj
  pending := h.fixups
  count := by rw [← length_pending, ← Array.length_toList, h.fixups, List.length_map]
  refused hnone points := by
    show b.run (.closeLoop points) = _
    simp only [run, h.closeLoop_none hnone points]
  accepted hsome points := by
    obtain ⟨depth, hdepth⟩ := Nat.exists_eq_succ_of_ne_zero (Nat.ne_of_gt hsome)
    obtain ⟨b', hclose, -⟩ := h.closeLoop hdepth points
    show (b.run (.closeLoop points)).1 = _
    simp only [run, hclose]
  inRange start hstart := by
    rw [h.marks] at hstart
    rw [← Array.length_toList, h.fixups, List.length_map]
    exact mem_marksOf hstart

/-- Whatever was called since the last reset, fixups follow the nesting of loops. In the flat code
a word emitted for a loop's target is that target if its loop was closed and the placeholder if
not, unless another call names its address. For this the addresses must not wrap around, and
stores have to keep to the spans handed out since the reset. -/
theorem fixups_follow_nesting (chunkWords : Nat) (ops : List Op) :
    let h := (History.fresh (new chunkWords)).after noteCall ops
    LoopDiscipline h.log h.state ∧
      ∀ flat, h.state.flatten = .ok flat → h.state.contents.length < 0x100000000 →
        OwnSpans h.log → ∀ x ∈ added h.log, x.Emitted h.log → x.Alone h.log →
          flat.code[x.fixup.address.toNat]? =
            some ((x.target? h.log).getD x.fixup.target.placeholder) := by
  intro h
  obtain ⟨htidy, hnested, hlaid⟩ := sound_after chunkWords ops
  refine ⟨hnested.discipline, ?_⟩
  intro flat hflat hlen hown x hx hemitted halone
  exact (hlaid hown).flat_word htidy hnested hlen hflat hx hemitted halone

/-- Two loops, one in the other, a word outside of both and a span that is filled later. -/
def sampleLoops : List Op :=
  [.openLoop, .emitFixup .next, .emit 5, .reset, .emitFixup .start, .openLoop, .emitFixup .exit,
    .openLoop, .emitFixup .next, .closeLoop ⟨10, 11, 12⟩, .allocate 1, .store ⟨1, 1, 1, 3⟩ [7],
    .emitFixup .next, .closeLoop ⟨20, 21, 22⟩, .closeLoop ⟨30, 31, 32⟩]

theorem sampleLoops_resolved :
    let h := (History.fresh (new 2)).after noteCall sampleLoops
    ∃ flat, h.state.flatten = .ok flat ∧ OwnSpans h.log ∧ flat.code[0]? = some 0 ∧
      flat.code[2]? = some 12 ∧ flat.code[4]? = some 22 := by
  intro h
  have hflat : h.state.flatten = .ok (.ofParts [0, 21, 12, 7, 22] []) :=
    Wire.eq_ok_of_toOption (by decide +kernel)
  have hown : OwnSpans h.log := by decide +kernel
  have hword := (fixups_follow_nesting 2 sampleLoops).2 _ hflat (by decide +kernel) hown
  refine ⟨_, hflat, hown, ?_, ?_, ?_⟩
  · have hstart := hword ⟨0, 0, ⟨.start, 0⟩⟩ (by decide +kernel) (by decide +kernel) (by decide +kernel)
    exact hstart.trans (by decide +kernel)
  · have hinner := hword ⟨4, 2, ⟨.next, 2⟩⟩ (by decide +kernel) (by decide +kernel) (by decide +kernel)
    exact hinner.trans (by decide +kernel)
  · have houter := hword ⟨8, 1, ⟨.next, 4⟩⟩ (by decide +kernel) (by decide +kernel) (by decide +kernel)
    exact houter.trans (by decide +kernel)

def Misplaced (h : History CodeBuffer Call) (x : Added) : Prop :=
  x ∈ added h.log ∧ x.Emitted h.log ∧ x.Alone h.log ∧
    ∃ flat, h.state.flatten = .ok flat ∧
      flat.code[x.fixup.address.toNat]? ≠
        some ((x.target? h.log).getD x.fixup.target.placeholder)

/-- A span from before a reset still reaches the storage, and may reach the word of a fixup. Nor
can fixups be told apart once addresses wrap around. -/
theorem fixups_misplaced :
    Misplaced ((History.fresh (new 4)).after noteCall
      [.allocate 1, .reset, .emitFixup .exit, .store ⟨0, 0, 1, 0⟩ [99]]) ⟨0, 0, ⟨.exit, 0⟩⟩ ∧
    Misplaced ((History.fresh (new 4)).after noteCall [.allocate 0x100000000, .emitFixup .exit])
      ⟨1, 0, ⟨.exit, 0⟩⟩ := by
  constructor
  · refine ⟨by decide +kernel, by decide +kernel, by decide +kernel, .ofParts [99] [], ?_, ?_⟩
    · exact Wire.eq_ok_of_toOption (by decide +kernel)
    · decide +kernel
  · refine ⟨by decide +kernel, by decide +kernel, by decide +kernel, .ofParts [0] [], ?_, ?_⟩
    · exact Wire.eq_ok_of_toOption (by decide +kernel)
    · decide +kernel

end CodeBuffer

end ScriptBackend
