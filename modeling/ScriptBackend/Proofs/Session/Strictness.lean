import ScriptBackend.Proofs.Session.Reuse

/-!
# Strict and lenient sessions

Whether diagnostics are failures matters only once there is one. Main statement: a
strict and a lenient session that do the same operations go hand in hand up to the
first diagnostic; both deliver it, and the strict one fails with it.
-/

namespace ScriptBackend

-- ---------------------------------------------------------------------------
-- Outcomes under either strictness
-- ---------------------------------------------------------------------------

namespace Outcome

def leaves : Outcome ρ → Bool → ρ
  | .silent left, _ => left
  | .reports _ stopped left, strict => if strict then stopped else left

theorem length_spoken_le (o : Outcome ρ) : o.spoken.length ≤ 1 := by
  cases o <;> simp [spoken]

theorem spoken_map (f : ρ → ρ') (o : Outcome ρ) : (o.map f).spoken = o.spoken := by
  cases o <;> rfl

theorem leaves_of_quiet {o : Outcome ρ} (h : o.spoken = []) (strict : Bool) :
    o.leaves strict = o.leaves false := by
  cases o with
  | silent left => rfl
  | reports d stopped left => cases h

theorem Candid.escalated_iff {o : Outcome ρ} {result : ρ → Except Failure α} (h : o.Candid result)
    (strict : Bool) (d : Diagnostic) :
    result (o.leaves strict) = .error (.escalated d) ↔ strict = true ∧ o.spoken = [d] := by
  cases o with
  | silent left => simp [leaves, spoken, h d]
  | reports e stopped left =>
    obtain ⟨hstopped, hleft⟩ := h
    cases strict with
    | true => simp [leaves, spoken, hstopped]
    | false => simp [leaves, hleft d]

end Outcome

structure Reporter.Heard (r r' : Reporter) (ds : List Diagnostic) : Prop where
  reported : r'.reported = r.reported + ds.length
  delivered : r'.delivered.toList = r.delivered.toList ++ ds

theorem Reporter.Heard.size_eq {r r' : Reporter} (h : r.Heard r' ds) :
    r'.delivered.size = r.delivered.size + ds.length := by
  rw [← Array.length_toList, h.delivered, List.length_append, Array.length_toList]

theorem Outcome.heard_under (o : Outcome ρ) (r : Reporter) : r.Heard (o.under r).2 o.spoken := by
  refine ⟨?_, o.delivered_under r⟩
  cases o <;> rfl

-- ---------------------------------------------------------------------------
-- Failures of the code
-- ---------------------------------------------------------------------------

namespace CodeBuffer

theorem unescalated_checkRoom (b : CodeBuffer) (size : Nat) : Unescalated (b.checkRoom size) := by
  unfold checkRoom
  split <;> rintro d ⟨⟩

theorem unescalated_run (b : CodeBuffer) (op : Op) : Unescalated (b.run op).1 := by
  cases op with
  | store span words =>
    simp only [run]
    split <;> rintro d ⟨⟩
  | closeLoop points =>
    simp only [run, closeLoop]
    cases b.marks <;> rintro d ⟨⟩
  | _ => exact unescalated_ok _

theorem unescalated_apply (b : CodeBuffer) (op : Op) : Unescalated (b.apply op).1 := by
  unfold apply
  split
  · rename_i e hroom
    cases hsize : op.size? with
    | none => simp [hsize] at hroom
    | some size =>
      rw [hsize] at hroom
      exact (b.unescalated_checkRoom size).error hroom
  · exact b.unescalated_run op

theorem unescalated_foldlM_applyPatch (patches : List Patch) (flat : FlatCode) :
    Unescalated (patches.foldlM applyPatch flat) := by
  induction patches generalizing flat with
  | nil => exact unescalated_ok _
  | cons p patches ih =>
    rw [List.foldlM_cons, applyPatch]
    cases flat.set? p.address.toNat p.value with
    | none => rintro d ⟨⟩
    | some flat => exact ih flat

theorem unescalated_flatten (b : CodeBuffer) : Unescalated b.flatten :=
  unescalated_foldlM_applyPatch _ _

end CodeBuffer

namespace Session

theorem unescalated_image (s : Session) : Unescalated s.image := by
  have hflat := s.code.unescalated_flatten
  unfold image
  cases h : s.code.flatten with
  | ok flat => exact unescalated_ok _
  | error e => exact hflat.error h

theorem unescalated_write (s : Session) (sink : List Text.Byte) : Unescalated (s.write sink).1 := by
  have hflat := s.code.unescalated_flatten
  unfold write
  cases h : s.code.flatten with
  | ok flat => exact unescalated_ok _
  | error e => exact hflat.error h

-- ---------------------------------------------------------------------------
-- One operation
-- ---------------------------------------------------------------------------

def Op.setsStrict : Op → Bool
  | .setStrict _ => true
  | _ => false

/-- An operation has an outcome that is the same for a strict and a lenient session: what it
reports is settled, and strictness decides between what it leaves. -/
structure Settles (op : Op) (s : Session) (o : Outcome (Except Failure Answer × Session)) :
    Prop where
  candid : o.Candid Prod.fst
  run : ∀ strict, (perform op).run (s.setStrict strict) =
    ((o.leaves strict).1, (o.leaves strict).2.setStrict strict)
  heard : ∀ strict, s.reporter.Heard (o.leaves strict).2.reporter o.spoken

theorem settles_silent (left : Session) (hresult : Unescalated result)
    (hrun : ∀ strict, (perform op).run (s.setStrict strict) = (result, left.setStrict strict))
    (hreported : left.reporter.reported = s.reporter.reported)
    (hdelivered : left.reporter.delivered = s.reporter.delivered) :
    Settles op s (.silent (result, left)) := by
  refine ⟨hresult, hrun, fun _ => ⟨hreported, ?_⟩⟩
  show left.reporter.delivered.toList = _ ++ []
  rw [hdelivered, List.append_nil]

theorem ComesTo.settles (h : ComesTo (perform op) s o) :
    Settles op s (o.map fun left =>
      (left.1, { left.2 with reporter := (o.under s.reporter).2, code := s.code })) := by
  have hheard := o.heard_under s.reporter
  refine ⟨h.candid.map id fun left => ?_, fun strict => ?_, fun strict => ?_⟩
  · cases left.1 <;> rfl
  · have hrun := h.run strict (s.reporter.setStrict strict) s.code rfl
    cases o with
    | silent left => exact hrun
    | reports d stopped left => cases strict <;> exact hrun
  · rw [Outcome.spoken_map]
    cases o with
    | silent left => exact hheard
    | reports d stopped left => cases strict <;> exact hheard

theorem settles_emitIdentifier (s : Session) (identifier : Option Identifier) :
    ∃ o, Settles (.emitIdentifier identifier) s o := by
  obtain ⟨u, ws, -, hemit⟩ := s.exists_emitted identifier
  have hrun : ∀ strict, (perform (.emitIdentifier identifier)).run (s.setStrict strict) = _ :=
    fun strict => (s.setStrict strict).run_emitIdentifier identifier
  have hcode : ∀ strict, (s.setStrict strict).code = s.code := fun _ => rfl
  have hemitted : ∀ strict, (s.setStrict strict).emitIdentifier identifier = _ :=
    fun strict => hemit strict (s.reporter.setStrict strict) s.code rfl
  simp only [hcode, hemitted] at hrun
  cases hcheck : s.code.checkRoom 2 with
  | error e =>
    simp only [hcheck] at hrun
    exact ⟨_, settles_silent s ((s.code.unescalated_checkRoom 2).error hcheck) hrun rfl rfl⟩
  | ok _ =>
    simp only [hcheck] at hrun
    exact ⟨_, settles_silent { u with reporter := s.reporter, code := (s.code.emitWords ws).2 }
      (unescalated_ok _) hrun rfl rfl⟩

theorem exists_settles (s : Session) (h : op.setsStrict = false) : ∃ o, Settles op s o := by
  have tabular : ∀ {op : Op}, op.tabular = true → ∃ o, Settles op s o := by
    intro op hop
    obtain ⟨o, ho⟩ := s.exists_comesTo hop
    exact ⟨_, ho.settles⟩
  cases op with
  | setStrict _ => cases h
  | openUnit file =>
    exact ⟨_, settles_silent (s.openUnit file) (unescalated_ok _) (fun _ => rfl) rfl rfl⟩
  | setFile file =>
    exact ⟨_, settles_silent (s.setFile file) (unescalated_ok _) (fun _ => rfl) rfl rfl⟩
  | emitIdentifier identifier => exact s.settles_emitIdentifier identifier
  | code op =>
    exact ⟨_, settles_silent { s with code := (s.code.apply op).2 }
      ((s.code.unescalated_apply op).map .code) (fun _ => rfl) rfl rfl⟩
  | _ => exact tabular rfl

theorem delivered_event {s : Session} (h : s.reporter.Heard (s.step op).reporter ds) :
    (s.event op).delivered = ds := by
  simp only [event, h.delivered, ← Array.length_toList, List.drop_left]

theorem Settles.step_eq (h : Settles op s o) (strict : Bool) :
    (s.setStrict strict).step op = (o.leaves strict).2.setStrict strict :=
  congrArg Prod.snd (h.run strict)

theorem Settles.result_eq (h : Settles op s o) (strict : Bool) :
    ((s.setStrict strict).event op).result = (o.leaves strict).1 := by
  rw [event, h.run]

theorem Settles.heard_step (h : Settles op s o) (strict : Bool) :
    (s.setStrict strict).reporter.Heard ((s.setStrict strict).step op).reporter o.spoken := by
  rw [h.step_eq]
  exact ⟨(h.heard strict).reported, (h.heard strict).delivered⟩

theorem Settles.delivered_eq (h : Settles op s o) (strict : Bool) :
    ((s.setStrict strict).event op).delivered = o.spoken :=
  delivered_event (h.heard_step strict)

/-- What a session reports on an operation: one diagnostic at most, which is the failure of a
strict session and of no other. -/
structure Accounts (s : Session) (op : Op) : Prop where
  heard : s.reporter.Heard (s.step op).reporter (s.event op).delivered
  once : (s.event op).delivered.length ≤ 1
  escalated : ∀ d, (s.event op).result = .error (.escalated d) ↔
    s.options.strict = true ∧ (s.event op).delivered = [d]

theorem Settles.accounts (h : Settles op s o) (strict : Bool) : (s.setStrict strict).Accounts op := by
  have hdelivered := h.delivered_eq strict
  refine ⟨?_, ?_, fun d => ?_⟩
  · rw [hdelivered]
    exact h.heard_step strict
  · rw [hdelivered]
    exact o.length_spoken_le
  · rw [hdelivered, h.result_eq]
    exact h.candid.escalated_iff strict d

theorem setStrict_self {s : Session} (h : s.reporter.strict = s.options.strict) :
    s.setStrict s.options.strict = s := by
  have hreporter : s.reporter.setStrict s.options.strict = s.reporter := by
    rw [← h]
    rfl
  rw [setStrict, hreporter]

theorem accounts_of_strict {s : Session} (h : s.reporter.strict = s.options.strict) (op : Op) :
    s.Accounts op := by
  cases hop : op.setsStrict with
  | false =>
    obtain ⟨o, ho⟩ := s.exists_settles hop
    rw [← setStrict_self h]
    exact ho.accounts s.options.strict
  | true =>
    cases op with
    | setStrict strict =>
      have hheard : s.reporter.Heard (s.step (.setStrict strict)).reporter [] :=
        ⟨rfl, (List.append_nil _).symm⟩
      have hdelivered := delivered_event hheard
      refine ⟨hdelivered ▸ hheard, by simp [hdelivered], fun d => ?_⟩
      simp only [hdelivered, List.ne_cons_self, and_false, iff_false]
      exact unescalated_ok _ d
    | _ => cases hop

-- ---------------------------------------------------------------------------
-- Runs
-- ---------------------------------------------------------------------------

theorem accounts_after (options : Options) (ops : List Op) (op : Op) :
    ((new options).after ops).Accounts op :=
  accounts_of_strict (kept_after options ops).strict op

theorem reported_after (options : Options) (ops : List Op) :
    ((new options).after ops).reporter.reported =
      ((new options).after ops).reporter.delivered.size := by
  suffices h : Kept ((new options).after ops) ∧ ((new options).after ops).reporter.reported =
      ((new options).after ops).reporter.delivered.size from h.2
  apply List.foldlRecOn
    (motive := fun s : Session => Kept s ∧ s.reporter.reported = s.reporter.delivered.size)
  · exact ⟨kept_new options, rfl⟩
  · rintro s ⟨hkept, hcount⟩ op -
    have hheard := (accounts_of_strict hkept.strict op).heard
    exact ⟨hkept.step op, by rw [hheard.reported, hheard.size_eq, hcount]⟩

theorem exists_after (s : Session) (strict : Bool) {ops : List Op}
    (hops : ∀ op ∈ ops, op.setsStrict = false) :
    ∃ u : Session, (s.setStrict strict).after ops = u.setStrict strict ∧
      s.reporter.delivered.size ≤ u.reporter.delivered.size := by
  induction ops generalizing s with
  | nil => exact ⟨s, rfl, Nat.le_refl _⟩
  | cons op ops ih =>
    obtain ⟨o, ho⟩ := s.exists_settles (hops op (by simp))
    obtain ⟨u, hu, hsize⟩ := ih (o.leaves strict).2 fun op hop => hops op (List.mem_cons_of_mem _ hop)
    refine ⟨u, by rw [after_cons, ho.step_eq, hu], ?_⟩
    have hheard := (ho.heard strict).size_eq
    omega

/-- A strict and a lenient session after the same operations are the same session but for
strictness, having answered alike and delivered nothing, unless both have delivered something. -/
theorem lockstep (s : Session) {ops : List Op} (hops : ∀ op ∈ ops, op.setsStrict = false) :
    (∃ u : Session, u.reporter.delivered = s.reporter.delivered ∧
      (∀ strict, (s.setStrict strict).after ops = u.setStrict strict) ∧
      ((s.setStrict true).trace ops).map (·.result) =
        ((s.setStrict false).trace ops).map (·.result)) ∨
    ∀ strict, s.reporter.delivered.size <
      ((s.setStrict strict).after ops).reporter.delivered.size := by
  induction ops generalizing s with
  | nil => exact .inl ⟨s, rfl, fun _ => rfl, rfl⟩
  | cons op ops ih =>
    have hrest : ∀ op ∈ ops, op.setsStrict = false := fun op hop => hops op (List.mem_cons_of_mem _ hop)
    obtain ⟨o, ho⟩ := s.exists_settles (hops op (by simp))
    cases o with
    | silent left =>
      -- one session for both: the induction goes on from it
      have hsame : left.2.reporter.delivered = s.reporter.delivered := by
        apply Array.toList_inj.mp
        simpa [Outcome.leaves, Outcome.spoken] using (ho.heard false).delivered
      have hstep : ∀ strict, (s.setStrict strict).step op = left.2.setStrict strict := ho.step_eq
      have hresult : ∀ strict, ((s.setStrict strict).event op).result = left.1 := ho.result_eq
      rcases ih left.2 hrest with ⟨u, hu, hafter, htrace⟩ | hmore
      · refine .inl ⟨u, hu.trans hsame, fun strict => ?_, ?_⟩
        · rw [after_cons, hstep, hafter]
        · simp only [trace, List.map_cons, hresult, hstep, htrace]
      · right
        intro strict
        rw [after_cons, hstep, ← hsame]
        exact hmore strict
    | reports d stopped left =>
      right
      intro strict
      have hsize := (ho.heard strict).size_eq
      obtain ⟨u, hu, hle⟩ := exists_after (Outcome.leaves (.reports d stopped left) strict).2 strict hrest
      rw [after_cons, ho.step_eq, hu]
      show _ < u.reporter.delivered.size
      simp only [Outcome.spoken, List.length_singleton] at hsize
      omega

/-- Whatever was done before, an operation delivers one diagnostic at most, each is counted, and
it is the failure of the operation if and only if the session is strict. Operations that leave
strictness alone answer alike and leave the same session but for strictness, whether diagnostics
are failures or not, until one delivers a diagnostic; it then delivers the same to both, and in
the strict session fails with it. -/
theorem strict_lockstep_until_report (options : Options) (ops : List Op)
    (hops : ∀ op ∈ ops, op.setsStrict = false) :
    (∀ (history : List Op) (op : Op),
      let u := (new options).after history
      u.reporter.reported = u.reporter.delivered.size ∧ u.Accounts op ∧
        Unescalated u.image ∧ ∀ sink, Unescalated (u.write sink).1) ∧
    let lenient := new { options with strict := false }
    let strict := new { options with strict := true }
    let s := lenient.after ops
    let t := strict.after ops
    (∀ op, Unescalated (s.event op).result) ∧
    (t.reporter.delivered = #[] ↔ s.reporter.delivered = #[]) ∧
    (s.reporter.delivered = #[] →
      (strict.trace ops).map (·.result) = (lenient.trace ops).map (·.result) ∧
      t = s.setStrict true ∧ t.image = s.image ∧ t.write = s.write ∧
      ∀ op, op.setsStrict = false →
        (t.event op).delivered = (s.event op).delivered ∧
        ((s.event op).delivered = [] →
          (t.event op).result = (s.event op).result ∧ t.step op = (s.step op).setStrict true) ∧
        ∀ d, (s.event op).delivered = [d] → (t.event op).result = .error (.escalated d)) := by
  refine ⟨fun history op => ⟨reported_after options history, accounts_after options history op,
    unescalated_image _, unescalated_write _⟩, ?_⟩
  intro lenient strict s t
  refine ⟨?_, ?_⟩
  · intro op d hd
    obtain ⟨u, hu, -⟩ := exists_after (new options) false hops
    have hs : s = u.setStrict false := hu
    obtain ⟨hstrict, -⟩ := ((accounts_after { options with strict := false } ops op).escalated d).mp hd
    have hlenient : s.options.strict = true := hstrict
    rw [hs] at hlenient
    cases hlenient
  · rcases lockstep (new options) hops with ⟨u, -, hafter, htrace⟩ | hmore
    · have hs : s = u.setStrict false := hafter false
      have ht : t = u.setStrict true := hafter true
      rw [hs, ht]
      refine ⟨Iff.rfl, fun _ => ⟨htrace, rfl, rfl, rfl, ?_⟩⟩
      intro op hop
      obtain ⟨o, ho⟩ := u.exists_settles hop
      rw [ho.delivered_eq, ho.delivered_eq, ho.result_eq, ho.result_eq, ho.step_eq, ho.step_eq]
      refine ⟨rfl, fun hquiet => ?_, fun d hd => (ho.candid.escalated_iff true d).mpr ⟨rfl, hd⟩⟩
      rw [o.leaves_of_quiet hquiet true]
      exact ⟨rfl, rfl⟩
    · have hs : 0 < s.reporter.delivered.size := hmore false
      have ht : 0 < t.reporter.delivered.size := hmore true
      refine ⟨⟨fun h => ?_, fun h => ?_⟩, fun h => ?_⟩
      · simp [h] at ht
      · simp [h] at hs
      · simp [h] at hs

def sampleConstant : List Op :=
  [.openUnit (some "unit"), .assign "limit" .float true 1, .lookup "Limit" 2]

theorem sampleConstant_lockstep :
    let options : Options := ⟨.deferred, false, 2⟩
    let again : Op := .assign "LIMIT" .string false 3
    let s := (new { options with strict := false }).after sampleConstant
    let t := (new { options with strict := true }).after sampleConstant
    let d : Diagnostic := .reassigned "LIMIT" (some ⟨"unit", 3⟩)
    (∀ op ∈ sampleConstant, op.setsStrict = false) ∧ t = s.setStrict true ∧
      (s.event again).delivered = [d] ∧ (t.event again).delivered = [d] ∧
      (t.event again).result = .error (.escalated d) := by
  intro options again s t d
  have hops : ∀ op ∈ sampleConstant, op.setsStrict = false := by decide
  have hnone : s.reporter.delivered = #[] := by decide +kernel
  have hdelivered : (s.event again).delivered = [d] := by decide +kernel
  obtain ⟨-, -, -, hlockstep⟩ := strict_lockstep_until_report options sampleConstant hops
  obtain ⟨-, ht, -, -, hnext⟩ := hlockstep hnone
  obtain ⟨hsame, -, hfailure⟩ := hnext again rfl
  exact ⟨hops, ht, hdelivered, hsame.trans hdelivered, hfailure d hdelivered⟩

end Session

end ScriptBackend
