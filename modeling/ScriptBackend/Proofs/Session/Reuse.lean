import ScriptBackend.Proofs.Code.Plain
import ScriptBackend.Proofs.Code.Storage
import ScriptBackend.Proofs.Session.Outcomes

/-!
# Units do not leak into each other

A session that opens a unit goes on as a new session would. What it keeps of its
past is what nobody can see through the operations of a compiler: how its chunks
were cut and what its reporter has counted. `Interchangeable` says so of two
sessions, every operation but raw access to the storage keeps it, and hence they
give the same trace.
-/

namespace ScriptBackend

-- ---------------------------------------------------------------------------
-- Code
-- ---------------------------------------------------------------------------

namespace CodeBuffer

/-- Operations that hand out cells or write to them directly, and so can see what was left
there. -/
def Op.raw : Op → Bool
  | .allocate _ | .store _ _ => true
  | _ => false

theorem exists_edit {op : Op} (h : op.raw = false) : ∃ e : Edit, ∀ b, apply b op = edit b e := by
  cases op with
  | allocate _ | store _ _ => cases h
  | emit word => exact ⟨.emit word, fun _ => rfl⟩
  | emitWords words => exact ⟨.emitWords words, fun _ => rfl⟩
  | emitFixup target => exact ⟨.emitFixup target, fun _ => rfl⟩
  | patch address value => exact ⟨.patch address value, fun _ => rfl⟩
  | breakLine line address => exact ⟨.breakLine line address, fun _ => rfl⟩
  | openLoop => exact ⟨.openLoop, fun _ => rfl⟩
  | addFixup target address => exact ⟨.addFixup target address, fun _ => rfl⟩
  | closeLoop points => exact ⟨.closeLoop points, fun _ => rfl⟩
  | reset => exact ⟨.reset, fun _ => rfl⟩

/-- Buffers that hold the same code and ask for chunks of the same capacity. -/
structure Interchangeable (b c : CodeBuffer) : Prop where
  chunkWords : c.chunkWords = b.chunkWords
  represent : ∃ t, Represents b t ∧ Represents c t

theorem Interchangeable.newCapacity (h : Interchangeable b c) (size : Nat) :
    c.newCapacity size = b.newCapacity size := by
  rw [CodeBuffer.newCapacity, CodeBuffer.newCapacity, h.chunkWords]

theorem Interchangeable.checkRoom (h : Interchangeable b c) (size : Nat) :
    c.checkRoom size = b.checkRoom size := by
  obtain ⟨t, hb, hc⟩ := h.represent
  rw [hb.tidy.checkRoom_eq, hc.tidy.checkRoom_eq, h.newCapacity]

theorem Interchangeable.position (h : Interchangeable b c) : c.position = b.position := by
  obtain ⟨t, hb, hc⟩ := h.represent
  rw [hb.position, hc.position]

theorem Interchangeable.emitWords (h : Interchangeable b c)
    (hcap : b.newCapacity ws.length ≤ Chunk.maxCapacity) :
    Interchangeable (b.emitWords ws).2 (c.emitWords ws).2 := by
  obtain ⟨t, hb, hc⟩ := h.represent
  exact ⟨h.chunkWords, t.append ws, hb.emitWords hcap, hc.emitWords (by rwa [h.newCapacity])⟩

theorem Interchangeable.edit (h : Interchangeable b c) (e : Edit) :
    (c.edit e).1 = (b.edit e).1 ∧ Interchangeable (b.edit e).2 (c.edit e).2 := by
  obtain ⟨t, hb, hc⟩ := h.represent
  have hchunk : (c.edit e).2.chunkWords = (b.edit e).2.chunkWords := by
    rw [hb.tidy.chunkWords_edit, hc.tidy.chunkWords_edit, h.chunkWords]
  by_cases hcap : ∀ ws, e.appended? = some ws → b.newCapacity ws.length ≤ Chunk.maxCapacity
  · obtain ⟨hbAnswer, hb'⟩ := hb.edit hcap
    obtain ⟨hcAnswer, hc'⟩ := hc.edit (e := e) fun ws hws => by
      rw [h.newCapacity]
      exact hcap ws hws
    exact ⟨hcAnswer.trans hbAnswer.symm, hchunk, _, hb', hc'⟩
  · -- neither buffer can take the words, and both stay as they are
    obtain ⟨ws, hcap⟩ := Classical.not_forall.mp hcap
    obtain ⟨hws, hcap⟩ := Classical.not_imp.mp hcap
    have hc' := hc.tidy.edit_of_full hws (by rwa [h.newCapacity])
    rw [hb.tidy.edit_of_full hws hcap, hc', h.newCapacity]
    exact ⟨rfl, h⟩

theorem Interchangeable.flatten (h : Interchangeable b c) : c.flatten = b.flatten := by
  obtain ⟨t, hb, hc⟩ := h.represent
  have hwords : c.words = b.words := by
    show c.contents.take c.position.toNat = b.contents.take b.position.toNat
    rw [hb.words, hc.words, h.position]
  rw [CodeBuffer.flatten, CodeBuffer.flatten, hwords, hb.patches, hc.patches, hb.lineBreaks,
    hc.lineBreaks]

theorem Interchangeable.observe (h : Interchangeable b c) : c.observe = b.observe := by
  have hflat := h.flatten
  have hposition := h.position
  obtain ⟨t, hb, hc⟩ := h.represent
  have hread : c.read? = b.read? := by
    funext address
    rw [read?_eq, read?_eq, hb.words, hc.words]
  have hloop : c.inLoop = b.inLoop := by rw [inLoop, inLoop, hb.marks, hc.marks]
  have hfixups : c.fixups = b.fixups := Array.toList_inj.mp (hc.fixups.trans hb.fixups.symm)
  have hbreaks : c.lineBreaks = b.lineBreaks :=
    Array.toList_inj.mp (hc.lineBreaks.trans hb.lineBreaks.symm)
  rw [CodeBuffer.observe, CodeBuffer.observe, hposition, hread, hfixups, hloop, hbreaks, hflat]

theorem Tidy.interchangeable_reset (hb : Tidy b) (hc : Tidy c) (h : c.chunkWords = b.chunkWords) :
    Interchangeable b.reset c.reset := by
  refine ⟨?_, .empty, hb.represents_reset, hc.represents_reset⟩
  show max c.chunkWords 1 = max b.chunkWords 1
  rw [h]

end CodeBuffer

namespace Session

-- ---------------------------------------------------------------------------
-- Sessions that cannot be told apart
-- ---------------------------------------------------------------------------

/-- Sessions that differ at most in how their code is stored and in what was reported. -/
structure Interchangeable (s t : Session) : Prop where
  tables : t = { s with reporter := t.reporter, code := t.code }
  settings : s.reporter.SameSettings t.reporter
  code : s.code.Interchangeable t.code

theorem Interchangeable.exchange_eq (h : Interchangeable s t) :
    s.exchange s.options.strict t.reporter t.code = t :=
  h.tables.symm

def Op.raw : Op → Bool
  | .code op => op.raw
  | _ => false

structure Agree (op : Op) (s t : Session) : Prop where
  answer : ((perform op).run t).1 = ((perform op).run s).1
  delivered : ∃ ds, (s.step op).reporter.delivered.toList = s.reporter.delivered.toList ++ ds ∧
    (t.step op).reporter.delivered.toList = t.reporter.delivered.toList ++ ds
  after : (s.step op).Interchangeable (t.step op)

theorem Interchangeable.tabular (h : Interchangeable s t) (hop : op.tabular = true) :
    Agree op s t := by
  obtain ⟨o, ho⟩ := s.exists_comesTo hop
  have hs := ho.run s.options.strict s.reporter s.code rfl
  have ht := ho.run s.options.strict t.reporter t.code h.settings.currentFile
  rw [h.exchange_eq] at ht
  -- strict mode is the same for both, so the outcome leaves both the same
  obtain ⟨hleft, hsettings⟩ := h.settings.under o
  rw [hleft] at ht
  have hsstep : s.step op = _ := congrArg Prod.snd hs
  have htstep : t.step op = _ := congrArg Prod.snd ht
  refine ⟨?_, ⟨o.spoken, ?_, ?_⟩, ?_⟩
  · rw [ht]
    exact (congrArg Prod.fst hs).symm
  · rw [hsstep]
    exact o.delivered_under s.reporter
  · rw [htstep]
    exact o.delivered_under t.reporter
  · rw [hsstep, htstep]
    exact ⟨rfl, hsettings, h.code⟩

theorem Agree.of_run (hs : (perform op).run s = (result, s')) (ht : (perform op).run t = (result, t'))
    (hsDelivered : s'.reporter.delivered = s.reporter.delivered)
    (htDelivered : t'.reporter.delivered = t.reporter.delivered) (h : s'.Interchangeable t') :
    Agree op s t := by
  refine ⟨by rw [hs, ht], ⟨[], ?_, ?_⟩, ?_⟩
  · rw [step, hs, hsDelivered, List.append_nil]
  · rw [step, ht, htDelivered, List.append_nil]
  · rw [step, step, hs, ht]
    exact h

theorem Interchangeable.code_step (h : Interchangeable s t) (hop : op.raw = false) :
    Agree (.code op) s t := by
  obtain ⟨e, he⟩ := CodeBuffer.exists_edit hop
  obtain ⟨hanswer, hcode⟩ := h.code.edit e
  rw [← he, ← he] at hanswer hcode
  have hrun : ∀ s, (perform (.code op)).run s =
      ((s.code.apply op).1.map .code, { s with code := (s.code.apply op).2 }) := fun _ => rfl
  have ht := hrun t
  rw [hanswer] at ht
  refine .of_run (hrun s) ht rfl rfl ⟨?_, h.settings, hcode⟩
  conv => lhs; rw [h.tables]

theorem exists_emitted (s : Session) (identifier : Option Identifier) :
    ∃ (u : Session) (ws : List Word), ws.length = 2 ∧
      ∀ strict r c, c.position = s.code.position →
        (s.exchange strict r c).emitIdentifier identifier =
          (s.code.position, u.exchange strict r (c.emitWords ws).2) := by
  cases identifier with
  | none =>
    refine ⟨s, [0, 0], rfl, ?_⟩
    intro strict r c hc
    rw [← hc]
    cases hmode : s.mode <;> rfl
  | some i =>
    cases hmode : s.mode with
    | immediate =>
      refine ⟨s, i.words, rfl, ?_⟩
      intro strict r c hc
      have hmode' : (s.exchange strict r c).mode = .immediate := hmode
      rw [← hc]
      simp only [Session.emitIdentifier, hmode']
      rfl
    | deferred =>
      refine ⟨{ (s.internGlobal i.name false).2 with
        references := s.references.record (s.internGlobal i.name false).1 s.code.position },
        [0, 0], rfl, ?_⟩
      intro strict r c hc
      have hmode' : (s.exchange strict r c).mode = .deferred := hmode
      rw [← hc]
      simp only [Session.emitIdentifier, hmode']
      rfl

theorem Interchangeable.emitIdentifier (h : Interchangeable s t) (identifier : Option Identifier) :
    Agree (.emitIdentifier identifier) s t := by
  have hroom := h.code.checkRoom 2
  have hsrun := s.run_emitIdentifier identifier
  have htrun := t.run_emitIdentifier identifier
  rw [hroom] at htrun
  cases hcheck : s.code.checkRoom 2 with
  | error e =>
    rw [hcheck] at hsrun htrun
    exact .of_run hsrun htrun rfl rfl h
  | ok u =>
    rw [hcheck] at hsrun htrun
    obtain ⟨u, ws, hlen, hemit⟩ := s.exists_emitted identifier
    have hcap : s.code.newCapacity ws.length ≤ Chunk.maxCapacity := by
      obtain ⟨_, hs, _⟩ := h.code.represent
      rw [hs.tidy.checkRoom_eq] at hcheck
      split at hcheck
      · rename_i hcap
        rwa [hlen]
      · cases hcheck
    have hs := hemit s.options.strict s.reporter s.code rfl
    have ht := hemit s.options.strict t.reporter t.code h.code.position
    have hself : s.exchange s.options.strict s.reporter s.code = s := rfl
    rw [hself] at hs
    rw [h.exchange_eq] at ht
    rw [hs] at hsrun
    rw [ht] at htrun
    exact .of_run hsrun htrun rfl rfl ⟨rfl, h.settings, h.code.emitWords hcap⟩

theorem Interchangeable.openUnit (h : Interchangeable s t) (file : Option String) :
    (s.openUnit file).Interchangeable (t.openUnit file) := by
  obtain ⟨p, hs, ht⟩ := h.code.represent
  refine ⟨?_, ⟨h.settings.strict, rfl⟩, hs.tidy.interchangeable_reset ht.tidy h.code.chunkWords⟩
  conv => lhs; rw [h.tables]
  rfl

theorem Interchangeable.agree (h : Interchangeable s t) (hop : op.raw = false) : Agree op s t := by
  cases op with
  | openUnit file => exact .of_run rfl rfl rfl rfl (h.openUnit file)
  | setStrict strict =>
    have hafter : (s.setStrict strict).Interchangeable (t.setStrict strict) := by
      refine ⟨?_, ⟨rfl, h.settings.currentFile⟩, h.code⟩
      conv => lhs; rw [h.tables]
      rfl
    exact .of_run rfl rfl rfl rfl hafter
  | setFile file =>
    have hafter : (s.setFile file).Interchangeable (t.setFile file) := by
      refine ⟨?_, ⟨h.settings.strict, rfl⟩, h.code⟩
      conv => lhs; rw [h.tables]
      rfl
    exact .of_run rfl rfl rfl rfl hafter
  | emitIdentifier identifier => exact h.emitIdentifier identifier
  | code op => exact h.code_step hop
  | _ => exact h.tabular rfl

-- ---------------------------------------------------------------------------
-- Traces
-- ---------------------------------------------------------------------------

/-- What can be seen of a session without changing it, except how much it has reported and how
many chunks its code takes. -/
structure Observation where
  options : Options
  strict : Bool
  currentFile : Option String
  region : Region
  globalPools : Pools
  functionPools : Pools
  references : References
  locals : Locals
  unitVars : Scope
  evalVars : Scope
  functionVars : Scope
  code : CodeBuffer.Observation
  image : Except Failure Image
  /-- What is written behind some bytes. -/
  written : List Text.Byte → Except Failure Unit × List Text.Byte

def observe (s : Session) : Observation where
  options := s.options
  strict := s.reporter.strict
  currentFile := s.reporter.currentFile
  region := s.region
  globalPools := s.globalPools
  functionPools := s.functionPools
  references := s.references
  locals := s.locals
  unitVars := s.unitVars
  evalVars := s.evalVars
  functionVars := s.functionVars
  code := s.code.observe
  image := s.image
  written := s.write

/-- An operation as a compiler and a listener see it. -/
structure Event where
  result : Except Failure Answer
  delivered : List Diagnostic
  after : Observation

def event (s : Session) (op : Op) : Event where
  result := ((perform op).run s).1
  delivered := (s.step op).reporter.delivered.toList.drop s.reporter.delivered.size
  after := (s.step op).observe

def trace (s : Session) : List Op → List Event
  | [] => []
  | op :: ops => s.event op :: (s.step op).trace ops

theorem Interchangeable.observe (h : Interchangeable s t) : t.observe = s.observe := by
  have hwrite : t.write = s.write := by
    funext sink
    rw [h.tables]
    simp only [write, h.code.flatten]
    rfl
  have himage : t.image = s.image := by
    rw [h.tables]
    simp only [image, h.code.flatten]
    rfl
  simp only [Session.observe, h.code.observe, hwrite, himage, h.settings.strict, h.settings.currentFile]
  rw [h.tables]

theorem Agree.event (h : Agree op s t) : t.event op = s.event op := by
  obtain ⟨ds, hs, ht⟩ := h.delivered
  simp only [Session.event, h.answer, h.after.observe, hs, ht, ← Array.length_toList,
    List.drop_left]

theorem Interchangeable.trace (h : Interchangeable s t) {ops : List Op}
    (hops : ∀ op ∈ ops, op.raw = false) : t.trace ops = s.trace ops := by
  -- on the operations: each is one step of `Interchangeable.agree`
  induction ops generalizing s t with
  | nil => rfl
  | cons op ops ih =>
    have hagree := h.agree (hops op (by simp))
    rw [Session.trace, Session.trace, hagree.event,
      ih hagree.after fun op hop => hops op (List.mem_cons_of_mem _ hop)]

-- ---------------------------------------------------------------------------
-- Opening a unit
-- ---------------------------------------------------------------------------

/-- The top level of the mode that is not active is empty. -/
structure Idle (s : Session) : Prop where
  unitVars : s.mode = .immediate → s.unitVars = .empty
  evalVars : s.mode = .deferred → s.evalVars = .empty

/-- What holds of a session at any time and makes its storage and settings those of a new one. -/
structure Kept (s : Session) : Prop where
  tidy : s.code.Tidy
  chunkWords : s.code.chunkWords = max s.options.chunkWords 1
  strict : s.reporter.strict = s.options.strict
  idle : s.Idle

theorem kept_new (options : Options) : Kept (new options) :=
  ⟨CodeBuffer.tidy_new _, rfl, rfl, fun _ => rfl, fun _ => rfl⟩

theorem Kept.congr (h : Kept s) (hcode : t.code = s.code)
    (hstrict : t.reporter.strict = s.reporter.strict) (hoptions : t.options = s.options)
    (hunit : t.unitVars = s.unitVars) (heval : t.evalVars = s.evalVars) : Kept t := by
  obtain ⟨htidy, hchunk, hstrict', hidle⟩ := h
  refine ⟨hcode ▸ htidy, by rw [hcode, hchunk, hoptions], by rw [hstrict, hstrict', hoptions], ?_, ?_⟩
  · rw [mode, hoptions, hunit]
    exact hidle.unitVars
  · rw [mode, hoptions, heval]
    exact hidle.evalVars

theorem Kept.setPools (h : Kept s) (p : Pools) : Kept (s.setPools p) := by
  unfold Session.setPools
  split <;> exact h.congr rfl rfl rfl rfl rfl

theorem Kept.setVars (h : Kept s) (v : Scope) (hr : r.strict = s.reporter.strict) :
    Kept { s.setVars v with reporter := r } := by
  obtain ⟨htidy, hchunk, hstrict, hunit, heval⟩ := h
  unfold Session.setVars
  -- at top level only the scope of the active mode is written
  split
  · exact ⟨htidy, hchunk, hr.trans hstrict, hunit, heval⟩
  · rename_i hmode
    exact ⟨htidy, hchunk, hr.trans hstrict, hunit, fun h => by cases hmode.symm.trans h⟩
  · rename_i hmode
    exact ⟨htidy, hchunk, hr.trans hstrict, fun h => (by cases hmode.symm.trans h), heval⟩

theorem Kept.onVars {x : Scope.Action α} {f : α → Answer} (h : Kept s)
    (hperform : perform op = f <$> Session.onVars x) (hop : op.tabular = true) :
    Kept (s.step op) := by
  have hstep : s.step op = ((Session.onVars x).run s).2 := by rw [step, hperform, run_map_snd]
  have hstrict := s.strict_step hop
  rw [hstep] at hstrict ⊢
  exact h.setVars _ hstrict

theorem Kept.onCode (h : Kept s) (op : CodeBuffer.Op) :
    Kept { s with code := (s.code.apply op).2 } :=
  ⟨h.tidy.apply op, (h.tidy.chunkWords_apply op).trans h.chunkWords, h.strict, h.idle.unitVars,
    h.idle.evalVars⟩

theorem Kept.emitIdentifier (h : Kept s) (identifier : Option Identifier) :
    Kept (s.step (.emitIdentifier identifier)) := by
  cases identifier with
  | none =>
    rw [step_emitIdentifier_none]
    exact h.onCode _
  | some i =>
    rw [step_emitIdentifier]
    cases hroom : s.code.checkRoom 2 with
    | error e => exact h
    | ok u =>
      have emitted : ∀ {ws : List Word}, ws.length = 2 →
          Kept { s with code := (s.code.emitWords ws).2 } := by
        intro ws hlen
        have happly : s.code.apply (.emitWords ws) = s.code.run (.emitWords ws) := by
          simp [CodeBuffer.apply, CodeBuffer.Op.size?, hlen, hroom]
        have hcode := h.onCode (.emitWords ws)
        rw [happly] at hcode
        exact hcode
      cases hmode : s.mode with
      | immediate =>
        simp only [emitIdentifier_immediate hmode]
        exact emitted rfl
      | deferred =>
        simp only [emitIdentifier_deferred hmode]
        have hcode : Kept { s with code := (s.code.emitWords [0, 0]).2 } := emitted rfl
        exact hcode.congr rfl rfl rfl rfl rfl

theorem Kept.step (h : Kept s) (op : Op) : Kept (s.step op) := by
  cases op with
  | openUnit file =>
    refine ⟨h.tidy.reset, ?_, h.strict, fun _ => rfl, h.idle.evalVars⟩
    show max s.code.chunkWords 1 = max s.options.chunkWords 1
    rw [h.chunkWords]
    omega
  | clearTables => exact ⟨h.tidy, h.chunkWords, h.strict, fun _ => rfl, h.idle.evalVars⟩
  | enterFunction | leaveFunction _ _ | recordLocals _ _ => exact h.congr rfl rfl rfl rfl rfl
  | setMode mode =>
    show Kept (s.setMode mode)
    unfold setMode
    split
    · exact h
    · exact ⟨h.tidy, h.chunkWords, h.strict, fun _ => rfl, fun _ => rfl⟩
  | setStrict strict => exact ⟨h.tidy, h.chunkWords, rfl, h.idle.unitVars, h.idle.evalVars⟩
  | setFile file => exact h.congr rfl rfl rfl rfl rfl
  | internString _ _ _ | internIntText _ | internFloatText _ | internFloat _ => exact h.setPools _
  | internName name => cases name <;> exact h.congr rfl rfl rfl rfl rfl
  | emitIdentifier identifier => exact h.emitIdentifier identifier
  | assign name kind isConstant line => exact h.onVars rfl rfl
  | lookup name line => exact h.onVars rfl rfl
  | lookupKind name line => exact h.onVars rfl rfl
  | lookupLocal namespaceName function name =>
    have hstrict : (s.step (.lookupLocal namespaceName function name)).reporter.strict = _ :=
      s.strict_step rfl
    rw [Session.step, perform, run_map_snd] at hstrict ⊢
    exact h.congr rfl hstrict rfl rfl rfl
  | literal text line =>
    have hstrict : (s.step (.literal text line)).reporter.strict = _ := s.strict_step rfl
    rw [Session.step, perform, run_map_snd] at hstrict ⊢
    exact h.congr rfl hstrict rfl rfl rfl
  | code op => exact h.onCode op

theorem kept_after (options : Options) (ops : List Op) : Kept ((new options).after ops) :=
  List.foldlRecOn (motive := Kept) ops step (kept_new options) fun _ h op _ => h.step op

theorem Kept.openUnit (h : Kept s) (hvars : s.evalVars = .empty) (file : Option String) :
    ((new s.options).openUnit file).Interchangeable (s.openUnit file) := by
  refine ⟨?_, ⟨h.strict, rfl⟩, ?_⟩
  · simp only [Session.openUnit, setFile, clearTables, new, hvars]
  · exact (CodeBuffer.tidy_new _).interchangeable_reset h.tidy h.chunkWords

/-- Units compiled on one session do not leak into each other: once a unit is opened, whatever
was done before, the session gives the trace of a new one with its options. Only the variables of
immediate code outlive a unit, and the scope of the mode that is not active is always empty. -/
theorem reused_like_new (options : Options) (earlier later : List Op) (file : Option String)
    (hlater : ∀ op ∈ later, op.raw = false) :
    let s := (new options).after earlier
    let reused := s.step (.openUnit file)
    let fresh := (new s.options).step (.openUnit file)
    s.Idle ∧ ((s.mode = .immediate → s.evalVars = .empty) →
      reused.observe = fresh.observe ∧ reused.trace later = fresh.trace later) := by
  intro s reused fresh
  have hkept := kept_after options earlier
  refine ⟨hkept.idle, ?_⟩
  intro himmediate
  have hvars : s.evalVars = .empty := by
    cases hmode : s.mode with
    | immediate => exact himmediate hmode
    | deferred => exact hkept.idle.evalVars hmode
  have hopened : fresh.Interchangeable reused := hkept.openUnit hvars file
  exact ⟨hopened.observe, hopened.trace hlater⟩

/-- A session left in a function and a loop, with a constant, an identifier and words of its
own. -/
def sampleReused : List Op :=
  [.openUnit (some "first"), .assign "limit" .float true 1, .emitIdentifier (some ⟨"self", 5⟩),
    .code (.emitWords [7, 8, 9]), .code .openLoop, .code (.emitFixup .exit), .enterFunction,
    .setStrict true]

def sampleNext : List Op :=
  [.lookup "limit" 2, .emitIdentifier (some ⟨"owner", 6⟩), .code (.emitFixup .exit),
    .code (.closeLoop ⟨0, 1, 2⟩)]

theorem sampleReused_like_new :
    let s := (new ⟨.deferred, false, 2⟩).after sampleReused
    (∀ op ∈ sampleNext, op.raw = false) ∧ s.mode = .deferred ∧
      (s.step (.openUnit none)).trace sampleNext =
        ((new s.options).step (.openUnit none)).trace sampleNext := by
  have hraw : ∀ op ∈ sampleNext, op.raw = false := by decide
  have hmode : ((new ⟨.deferred, false, 2⟩).after sampleReused).mode = .deferred := by decide +kernel
  obtain ⟨-, hlike⟩ := reused_like_new ⟨.deferred, false, 2⟩ sampleReused sampleNext none hraw
  exact ⟨hraw, hmode, (hlike fun h => by cases hmode.symm.trans h).2⟩

end Session

end ScriptBackend
