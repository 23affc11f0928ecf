import ScriptBackend.Proofs.Code.Plain
import ScriptBackend.Proofs.Image.Linking
import ScriptBackend.Proofs.Image.RoundTrip
import ScriptBackend.Proofs.References
import ScriptBackend.Proofs.Session.Steps

/-!
# Deferred code becomes immediate code

Two sessions take the same operations, one in each mode. Their codes grow side by
side and differ only in the slots of identifiers: immediate code holds a handle
there, deferred code holds zeros and a reference waits. Linking the deferred image
fills the slots, and what it gives is the immediate code.
-/

namespace ScriptBackend

-- ---------------------------------------------------------------------------
-- Twin buffers
-- ---------------------------------------------------------------------------

namespace CodeBuffer

def Op.edit? : Op → Option Edit
  | .emit word => some (.emit word)
  | .emitWords words => some (.emitWords words)
  | .emitFixup target => some (.emitFixup target)
  | .patch address value => some (.patch address value)
  | .breakLine line address => some (.breakLine line address)
  | .openLoop => some .openLoop
  | .addFixup target address => some (.addFixup target address)
  | .closeLoop points => some (.closeLoop points)
  | .allocate _ | .store _ _ | .reset => none

theorem apply_of_edit? (b : CodeBuffer) (h : op.edit? = some e) : b.apply op = b.edit e := by
  cases op <;> cases h <;> rfl

theorem edit?_ne_reset {op : Op} : op.edit? ≠ some .reset := by
  cases op <;> simp [Op.edit?]

end CodeBuffer

namespace PlainCode

open CodeBuffer (Edit)

def withWords (t : PlainCode) (words : List Word) : PlainCode := { t with words }

theorem edit_withWords (t : PlainCode) (hlen : is.length = t.words.length) (he : e ≠ .reset) :
    (t.edit e).2.words = t.words ++ e.appended?.getD [] ∧
      ((t.withWords is).edit e).2 = (t.edit e).2.withWords (is ++ e.appended?.getD []) := by
  have hnext : (t.withWords is).next = t.next := by rw [next, next, ← hlen]; rfl
  cases e with
  | emit _ | emitWords _ | fill _ => exact ⟨rfl, rfl⟩
  | emitFixup target =>
    simp only [edit, hnext]
    simp only [addFixup, append, withWords]
    cases t.loops <;> exact ⟨rfl, rfl⟩
  | addFixup target address =>
    simp only [edit, addFixup, withWords, Edit.appended?, Option.getD_none, List.append_nil]
    cases t.loops <;> exact ⟨rfl, rfl⟩
  | closeLoop points =>
    cases hloops : t.loops <;> simp [edit, withWords, Edit.appended?, hloops]
  | patch _ _ | breakLine _ _ | openLoop =>
    simp [edit, withWords, Edit.appended?]
  | reset => exact absurd rfl he

end PlainCode

namespace CodeBuffer

theorem Represents.edit_withWords (hd : Represents d t) (hi : Represents i (t.withWords is))
    (hlen : is.length = t.words.length) (hchunk : i.chunkWords = d.chunkWords) (he : e ≠ .reset) :
    ∃ t' ws, t'.words = t.words ++ ws ∧ Represents (d.edit e).2 t' ∧
      Represents (i.edit e).2 (t'.withWords (is ++ ws)) := by
  have hcapacity : ∀ n, i.newCapacity n = d.newCapacity n := by
    intro n
    rw [newCapacity, newCapacity, hchunk]
  by_cases hcap : ∀ ws, e.appended? = some ws → d.newCapacity ws.length ≤ Chunk.maxCapacity
  · obtain ⟨hwords, htwin⟩ := t.edit_withWords hlen he
    refine ⟨(t.edit e).2, e.appended?.getD [], hwords, (hd.edit hcap).2, ?_⟩
    rw [← htwin]
    exact (hi.edit fun ws hws => hcapacity _ ▸ hcap ws hws).2
  · simp only [Classical.not_forall] at hcap
    obtain ⟨ws, hws, hfull⟩ := hcap
    refine ⟨t, [], by rw [List.append_nil], ?_, ?_⟩
    · rw [hd.tidy.edit_of_full hws hfull]
      exact hd
    · rw [hi.tidy.edit_of_full hws (hcapacity _ ▸ hfull), List.append_nil]
      exact hi

end CodeBuffer

-- ---------------------------------------------------------------------------
-- Slots
-- ---------------------------------------------------------------------------

structure Slot where
  position : Nat
  offset : UInt32
  identifier : Identifier

def Slot.Covers (s : Slot) (n : Nat) : Prop := n = s.position ∨ n = s.position + 1

/-- How deferred words and immediate words grow side by side. -/
inductive Opened : List Slot → List Word → List Word → Prop
  | nil : Opened [] [] []
  | words : Opened slots ds is → (ws : List Word) → Opened slots (ds ++ ws) (is ++ ws)
  | identifier : Opened slots ds is → (offset : UInt32) → (identifier : Identifier) →
    Opened (slots ++ [⟨ds.length, offset, identifier⟩]) (ds ++ [0, 0]) (is ++ identifier.words)

theorem Opened.length_eq (h : Opened slots ds is) : is.length = ds.length := by
  induction h with
  | nil => rfl
  | words _ ws ih => rw [List.length_append, List.length_append, ih]
  | identifier _ offset identifier ih => rw [List.length_append, List.length_append, ih]; rfl

theorem Opened.agree (h : Opened slots ds is) (hn : ∀ s ∈ slots, ¬ s.Covers n) : ds[n]? = is[n]? := by
  induction h with
  | nil => rfl
  | words h ws ih =>
    rw [List.getElem?_append, List.getElem?_append, h.length_eq, ih hn]
  | @identifier slots ds is h offset identifier ih =>
    have hlast := hn ⟨ds.length, offset, identifier⟩ (by simp)
    have hbefore := ih fun s hs => hn s (List.mem_append_left _ hs)
    simp only [Slot.Covers, not_or] at hlast
    rw [List.getElem?_append, List.getElem?_append, h.length_eq, hbefore]
    split
    · rfl
    · have hpast : 2 ≤ n - ds.length := by omega
      rw [List.getElem?_eq_none (by simpa using hpast),
        List.getElem?_eq_none (by simpa [Identifier.words] using hpast)]

theorem Opened.holds (h : Opened slots ds is) (hs : s ∈ slots) :
    is[s.position]? = some s.identifier.handle.toUInt32 ∧
      is[s.position + 1]? = some (s.identifier.handle >>> 32).toUInt32 := by
  induction h with
  | nil => cases hs
  | words h ws ih =>
    obtain ⟨hlow, hhigh⟩ := ih hs
    rw [List.getElem?_append_left (List.getElem?_eq_some_iff.mp hlow).1,
      List.getElem?_append_left (List.getElem?_eq_some_iff.mp hhigh).1]
    exact ⟨hlow, hhigh⟩
  | @identifier slots ds is h offset identifier ih =>
    rcases List.mem_append.mp hs with hs | hs
    · obtain ⟨hlow, hhigh⟩ := ih hs
      rw [List.getElem?_append_left (List.getElem?_eq_some_iff.mp hlow).1,
        List.getElem?_append_left (List.getElem?_eq_some_iff.mp hhigh).1]
      exact ⟨hlow, hhigh⟩
    · rw [List.mem_singleton] at hs
      subst hs
      simp [← h.length_eq, Identifier.words]

theorem Opened.alike (h : Opened slots ds is) (lineBreaks : List Word) :
    (FlatCode.ofParts ds lineBreaks).Alike (.ofParts is lineBreaks)
      fun n => ∃ s ∈ slots, s.Covers n := by
  refine ⟨h.length_eq.symm, ?_⟩
  intro n hn
  have hagree : ds[n]? = is[n]? := h.agree fun s hs hcovers => hn ⟨s, hs, hcovers⟩
  simp only [FlatCode.ofParts, List.getElem?_toArray, List.getElem?_append, h.length_eq, hagree]

theorem Opened.holds_ofParts (h : Opened slots ds is) (lineBreaks : List Word) (hs : s ∈ slots) :
    (FlatCode.ofParts is lineBreaks).Holds s.position s.identifier.handle := by
  obtain ⟨hlow, hhigh⟩ := h.holds hs
  have hlt := (List.getElem?_eq_some_iff.mp hlow).1
  have hlt' := (List.getElem?_eq_some_iff.mp hhigh).1
  refine ⟨hlt', ?_, ?_⟩
  · rw [FlatCode.ofParts, List.getElem?_toArray, List.getElem?_append_left hlt, hlow]
  · rw [FlatCode.ofParts, List.getElem?_toArray, List.getElem?_append_left hlt', hhigh]

namespace Session

-- ---------------------------------------------------------------------------
-- Twin sessions
-- ---------------------------------------------------------------------------

/-- Operations of a compiler that keeps to one mode and writes all the code it takes. -/
def Op.compiles : Op → Bool
  | .setMode _ | .clearTables => false
  | .code op => op.edit?.isSome
  | _ => true

def Named (p : StringPool) (s : Slot) : Prop :=
  ∃ e ∈ p.entries.toList, e.start = s.offset ∧
    Text.SameName e.text (StringPool.cut s.identifier.name)

theorem Named.extend {p q : Pools} (h : Named p.strings s) (hpq : p.Extends q) :
    Named q.strings s := by
  obtain ⟨e, he, hstart, hname⟩ := h
  exact ⟨e, hpq.strings.subset he, hstart, hname⟩

/-- An immediate and a deferred session that have taken the same operations. Their codes are
`t` with two lists of words; the deferred one has a reference for each slot. -/
structure Twins (known : Identifier → Prop) (i d : Session) (slots : List Slot) (t : PlainCode)
    (is : List Word) : Prop where
  immediateMode : i.mode = .immediate
  deferredMode : d.mode = .deferred
  chunkWords : i.code.chunkWords = d.code.chunkWords
  immediate : i.code.Represents (t.withWords is)
  deferred : d.code.Represents t
  opened : Opened slots t.words is
  pools : d.globalPools.Sound
  references : d.references.Sound
  uses : ∀ u, u ∈ d.references.uses ↔ ∃ s ∈ slots, u = (s.offset, UInt32.ofNat s.position)
  named : ∀ s ∈ slots, known s.identifier ∧ Named d.globalPools.strings s

theorem twins_new (known : Identifier → Prop) (options : Options) :
    Twins known (new { options with mode := .immediate }) (new { options with mode := .deferred })
      [] .empty [] where
  immediateMode := rfl
  deferredMode := rfl
  chunkWords := rfl
  immediate := CodeBuffer.represents_new options.chunkWords
  deferred := CodeBuffer.represents_new options.chunkWords
  opened := .nil
  pools := Pools.sound_empty
  references := References.sound_empty
  uses u := by simp [new, References.uses, References.empty]
  named s hs := (nomatch hs)

theorem Twins.quiet (h : Twins known i d slots t is) (hi : SameCode i i') (hd : SameCode d d')
    (hpools : Pools.Step d.globalPools d'.globalPools) : Twins known i' d' slots t is where
  immediateMode := hi.mode.trans h.immediateMode
  deferredMode := hd.mode.trans h.deferredMode
  chunkWords := by rw [hi.code, hd.code, h.chunkWords]
  immediate := hi.code ▸ h.immediate
  deferred := hd.code ▸ h.deferred
  opened := h.opened
  pools := hpools.sound h.pools
  references := hd.references ▸ h.references
  uses := hd.references ▸ h.uses
  named s hs := by
    obtain ⟨hknown, hname⟩ := h.named s hs
    exact ⟨hknown, hname.extend (hpools.extends h.pools)⟩

theorem Twins.openUnit (h : Twins known i d slots t is) (file : Option String) :
    Twins known (i.step (.openUnit file)) (d.step (.openUnit file)) [] .empty [] where
  immediateMode := h.immediateMode
  deferredMode := h.deferredMode
  chunkWords := by
    show i.code.reset.chunkWords = d.code.reset.chunkWords
    rw [CodeBuffer.reset, CodeBuffer.reset, h.chunkWords]
  immediate := h.immediate.tidy.represents_reset
  deferred := h.deferred.tidy.represents_reset
  opened := .nil
  pools := Pools.sound_empty
  references := References.sound_empty
  uses u := by
    show u ∈ References.empty.uses ↔ _
    simp [References.uses, References.empty]
  named s hs := (nomatch hs)

theorem Twins.code (h : Twins known i d slots t is) {op : CodeBuffer.Op}
    (hop : op.edit?.isSome = true) :
    ∃ slots t is, Twins known (i.step (.code op)) (d.step (.code op)) slots t is := by
  obtain ⟨e, he⟩ := Option.isSome_iff_exists.mp hop
  have hreset : e ≠ .reset := by
    rintro rfl
    exact CodeBuffer.edit?_ne_reset he
  obtain ⟨t', ws, hwords, hdeferred, himmediate⟩ :=
    h.deferred.edit_withWords h.immediate h.opened.length_eq h.chunkWords hreset
  refine ⟨slots, t', is ++ ws, ?_⟩
  rw [step_code, step_code, i.code.apply_of_edit? he, d.code.apply_of_edit? he]
  refine ⟨h.immediateMode, h.deferredMode, ?_, himmediate, hdeferred, ?_, h.pools, h.references,
    h.uses, h.named⟩
  · show (i.code.edit e).2.chunkWords = (d.code.edit e).2.chunkWords
    rw [h.immediate.tidy.chunkWords_edit, h.deferred.tidy.chunkWords_edit, h.chunkWords]
  · rw [hwords]
    exact h.opened.words ws

theorem Twins.emitIdentifier_of_room (h : Twins known i d slots t is) (hknown : known identifier)
    (hcap : d.code.newCapacity 2 ≤ Chunk.maxCapacity) :
    Twins known (i.emitIdentifier (some identifier)).2 (d.emitIdentifier (some identifier)).2
      (slots ++ [⟨t.words.length,
        (d.globalPools.strings.intern identifier.name false false).1, identifier⟩])
      (t.append [0, 0]) (is ++ identifier.words) := by
  have hpools := Pools.Step.string d.globalPools identifier.name false false
  rw [emitIdentifier_immediate h.immediateMode, emitIdentifier_deferred h.deferredMode]
  refine ⟨h.immediateMode, h.deferredMode, h.chunkWords, ?_, ?_, h.opened.identifier _ identifier,
    hpools.sound h.pools, h.references.record _ _, ?_, ?_⟩
  · have hcap : i.code.newCapacity identifier.words.length ≤ Chunk.maxCapacity := by
      rw [CodeBuffer.newCapacity, h.chunkWords]
      exact hcap
    exact h.immediate.emitWords hcap
  · exact h.deferred.emitWords hcap
  · intro u
    rw [h.references.mem_uses_record, h.uses, h.deferred.position]
    simp only [List.mem_append, List.mem_singleton, or_and_right, exists_or, exists_eq_left]
    rfl
  · intro s hs
    rcases List.mem_append.mp hs with hs | hs
    · obtain ⟨hold, hname⟩ := h.named s hs
      exact ⟨hold, hname.extend (hpools.extends h.pools)⟩
    · obtain rfl := List.mem_singleton.mp hs
      obtain ⟨e, he, hstart, hanswers⟩ := h.pools.strings.exists_entry identifier.name false false
      refine ⟨hknown, e, he, hstart, ?_⟩
      simpa [StringPool.Entry.answers, StringPool.agrees, Text.SameName] using
        (Bool.and_eq_true_iff.mp hanswers).2

theorem Twins.emitIdentifier (h : Twins known i d slots t is) (hknown : known identifier) :
    ∃ slots t is, Twins known (i.step (.emitIdentifier (some identifier)))
      (d.step (.emitIdentifier (some identifier))) slots t is := by
  have hroom : i.code.checkRoom 2 = d.code.checkRoom 2 := by
    rw [h.immediate.tidy.checkRoom_eq, h.deferred.tidy.checkRoom_eq, CodeBuffer.newCapacity,
      CodeBuffer.newCapacity, h.chunkWords]
  rw [step_emitIdentifier, step_emitIdentifier, hroom, h.deferred.tidy.checkRoom_eq]
  by_cases hcap : d.code.newCapacity 2 ≤ Chunk.maxCapacity
  · rw [if_pos hcap]
    exact ⟨_, _, _, h.emitIdentifier_of_room hknown hcap⟩
  · rw [if_neg hcap]
    exact ⟨slots, t, is, h⟩

theorem Twins.step (h : Twins known i d slots t is) (hop : op.compiles = true)
    (hknown : ∀ identifier, op = .emitIdentifier (some identifier) → known identifier) :
    ∃ slots t is, Twins known (i.step op) (d.step op) slots t is := by
  have quiet : op.quiet = true → op.clears = false →
      ∃ slots t is, Twins known (i.step op) (d.step op) slots t is := by
    intro hquiet hclears
    exact ⟨slots, t, is, h.quiet (i.step_sameCode hquiet) (d.step_sameCode hquiet)
      (d.poolsOf_step hclears .global)⟩
  cases op with
  | openUnit file => exact ⟨[], .empty, [], h.openUnit file⟩
  | clearTables | setMode _ => cases hop
  | emitIdentifier identifier =>
    cases identifier with
    | none =>
      rw [step_emitIdentifier_none, step_emitIdentifier_none]
      exact h.code rfl
    | some identifier => exact h.emitIdentifier (hknown identifier rfl)
  | code op => exact h.code hop
  | _ => exact quiet rfl rfl

/-- The run lemma: sessions that start as twins stay twins. -/
theorem Twins.after (h : Twins known i d slots t is) {ops : List Op}
    (hops : ∀ op ∈ ops, op.compiles = true)
    (hknown : ∀ identifier, .emitIdentifier (some identifier) ∈ ops → known identifier) :
    ∃ slots t is, Twins known (i.after ops) (d.after ops) slots t is := by
  induction ops generalizing i d slots t is with
  | nil => exact ⟨slots, t, is, h⟩
  | cons op ops ih =>
    obtain ⟨slots, t, is, hstep⟩ := h.step (hops op (by simp)) fun identifier heq =>
      hknown identifier (by simp [heq])
    exact ih hstep (fun op hop => hops op (List.mem_cons_of_mem _ hop)) fun identifier hmem =>
      hknown identifier (List.mem_cons_of_mem _ hmem)

-- ---------------------------------------------------------------------------
-- Linking
-- ---------------------------------------------------------------------------

/-- No patch reaches a word that waits for an identifier. -/
def PatchesApart (s : Session) : Prop :=
  ∀ p ∈ s.code.patches.toList, ∀ r ∈ s.references.toList, ∀ a ∈ r.addresses,
    p.address ≠ a ∧ p.address ≠ a + 1

instance (s : Session) : Decidable s.PatchesApart :=
  decidable_of_iff
    (s.code.patches.toList.all (fun p => s.references.toList.all fun r => r.addresses.all fun a =>
      p.address != a && p.address != a + 1) = true)
    (by simp only [PatchesApart, List.all_eq_true, Bool.and_eq_true, bne_iff_ne])

theorem Twins.not_covers (h : Twins known i d slots t is) (hapart : d.PatchesApart)
    (hp : p ∈ t.patches) (hs : s ∈ slots) : ¬ s.Covers p.address.toNat := by
  obtain ⟨r, hr, -, ha⟩ := References.mem_uses.mp ((h.uses _).mpr ⟨s, hs, rfl⟩)
  obtain ⟨hlow, hhigh⟩ := hapart p (h.deferred.patches ▸ hp) r (List.mem_reverse.mpr hr) _ ha
  have haddress : p.address = UInt32.ofNat p.address.toNat := UInt32.ofNat_toNat.symm
  rintro (hn | hn)
  · exact hlow (by rw [haddress, hn])
  · exact hhigh (by rw [haddress, hn, UInt32.ofNat_add]; rfl)

theorem Twins.flatten (h : Twins known i d slots t is) (hapart : d.PatchesApart)
    (hlen : t.words.length < 0x100000000) :
    (∃ e, d.code.flatten = .error e ∧ i.code.flatten = .error e) ∨
      ∃ f g, d.code.flatten = .ok f ∧ i.code.flatten = .ok g ∧
        f.Alike g (fun n => ∃ s ∈ slots, s.Covers n) ∧
        ∀ s ∈ slots, g.Holds s.position s.identifier.handle := by
  have hlen' : is.length < 0x100000000 := h.opened.length_eq ▸ hlen
  rw [h.deferred.flatten hlen, h.immediate.flatten hlen']
  rcases (h.opened.alike (t.lineBreaks.flatMap fun l => [l.line, l.address])).foldlM_applyPatch
    t.patches with ⟨e, hf, hg⟩ | ⟨f, g, hf, hg, halike, hlength, hwords⟩
  · exact .inl ⟨e, hf, hg⟩
  · refine .inr ⟨f, g, hf, hg, halike, ?_⟩
    intro s hs
    have hholds := h.opened.holds_ofParts (t.lineBreaks.flatMap fun l => [l.line, l.address]) hs
    refine ⟨hlength ▸ hholds.inside, ?_, ?_⟩
    · rw [hwords s.position fun p hp heq => h.not_covers hapart hp hs (.inl heq.symm)]
      exact hholds.low
    · rw [hwords (s.position + 1) fun p hp heq => h.not_covers hapart hp hs (.inr heq.symm)]
      exact hholds.high

theorem Twins.toNat_position (h : Twins known i d slots t is) (hlen : t.words.length < 0x100000000)
    (hs : s ∈ slots) : (UInt32.ofNat s.position).toNat = s.position := by
  have hlt : s.position < is.length := (List.getElem?_eq_some_iff.mp (h.opened.holds hs).1).1
  rw [h.opened.length_eq] at hlt
  exact UInt32.toNat_ofNat_of_lt' (Nat.lt_trans hlt hlen)

theorem Twins.exists_slot (h : Twins known i d slots t is) (hlen : t.words.length < 0x100000000)
    (hr : r ∈ d.references.entries.toList) (ha : a ∈ r.addresses) :
    ∃ s ∈ slots, s.offset = r.offset ∧ a.toNat = s.position := by
  obtain ⟨s, hs, heq⟩ := (h.uses _).mp (References.mem_uses.mpr ⟨r, hr, rfl, ha⟩)
  obtain ⟨hoffset, rfl⟩ := Prod.mk.inj heq
  exact ⟨s, hs, hoffset.symm, h.toNat_position hlen hs⟩

theorem Twins.link {intern : Interner σ} (h : Twins known i d slots t is)
    (hpool : d.globalPools.strings.extent < 0x100000000) (hlen : t.words.length < 0x100000000)
    (hintern : ∀ identifier, known identifier → ∀ name,
      Text.SameName name (StringPool.cut identifier.name) →
        ∀ state, ((intern name).run state).1 = identifier.handle)
    (halike : f.Alike g fun n => ∃ s ∈ slots, s.Covers n)
    (hholds : ∀ s ∈ slots, g.Holds s.position s.identifier.handle)
    (hflat : d.code.flatten = .ok f) (himage : d.image = .ok k) (state : σ) :
    ∃ linked, ((k.link intern).run state).1 = (.ok (), linked) ∧ linked.code = g := by
  obtain ⟨f', hf', rfl⟩ := image_eq_ok_iff.mp himage
  cases hf'.symm.trans hflat
  have hreferences : d.openReferences = d.references.entries.toList.reverse := by
    simp only [openReferences, h.deferredMode]
    rfl
  refine Image.link_run h.deferredMode halike ?_ ?_ state
  · intro r hr
    replace hr : r ∈ d.references.entries.toList := by
      rw [hreferences, List.mem_reverse] at hr
      exact hr
    -- The host is asked for the spelling that the pool holds, which a literal may have set; every
    -- slot with this offset has an identifier of that name up to case.
    have htext : ∀ s ∈ slots, s.offset = r.offset → ∃ name,
        Text.textAt? d.globalPools.strings.bytes r.offset = some name ∧
          ∀ state, ((intern name).run state).1 = s.identifier.handle := by
      intro s hs hoffset
      obtain ⟨hknown, e, he, hstart, hname⟩ := h.named s hs
      refine ⟨e.text, ?_, hintern s.identifier hknown e.text hname⟩
      rw [← hoffset, ← hstart]
      exact h.pools.strings.textAt?_start hpool he
    obtain ⟨a₀, ha₀⟩ := List.exists_mem_of_ne_nil _ (h.references.used r hr)
    obtain ⟨s₀, hs₀, hoffset₀, -⟩ := h.exists_slot hlen hr ha₀
    obtain ⟨name, hname, -⟩ := htext s₀ hs₀ hoffset₀
    refine ⟨name, ?_, ?_⟩
    · have hroom : r.addresses.find? (fun a => decide (f.codeLength < a.toNat + 2)) = none := by
        rw [List.find?_eq_none]
        intro a ha
        obtain ⟨s, hs, -, hposition⟩ := h.exists_slot hlen hr ha
        have hinside := (hholds s hs).inside
        rw [hposition, halike.codeLength]
        simp only [decide_eq_true_eq]
        omega
      simp only [Image.linkable, Image.globalText?, hname, hroom]
    · intro state a ha
      obtain ⟨s, hs, hoffset, hposition⟩ := h.exists_slot hlen hr ha
      obtain ⟨name', hname', hhandle⟩ := htext s hs hoffset
      cases hname'.symm.trans hname
      rw [hposition, hhandle]
      exact hholds s hs
  · rintro n ⟨s, hs, hcovers⟩
    obtain ⟨r, hr, -, ha⟩ := References.mem_uses.mp ((h.uses _).mpr ⟨s, hs, rfl⟩)
    refine ⟨r, ?_, _, ha, ?_⟩
    · rw [hreferences, List.mem_reverse]
      exact hr
    · rw [h.toNat_position hlen hs]
      exact hcovers

def compiled (options : Options) (mode : Mode) (ops : List Op) : Session :=
  (new { options with mode }).after ops

/-- A host that knows every identifier up to case makes deferred code what immediate code would
have been. Both images can be taken or neither can, and linking the deferred one, read back from
the wire or not, gives the code and the line breaks of the immediate one. -/
theorem linked_deferred_eq_immediate (options : Options) (ops : List Op)
    (hops : ∀ op ∈ ops, op.compiles = true) (intern : Interner σ)
    (hintern : ∀ identifier, .emitIdentifier (some identifier) ∈ ops → ∀ name,
      Text.SameName name (StringPool.cut identifier.name) →
        ∀ state, ((intern name).run state).1 = identifier.handle)
    (hpool : (compiled options .deferred ops).globalPools.strings.extent < 0x100000000)
    (hcode : (compiled options .deferred ops).code.contents.length < 0x100000000)
    (hapart : (compiled options .deferred ops).PatchesApart) :
    ((compiled options .deferred ops).image.map fun _ => ()) =
        ((compiled options .immediate ops).image.map fun _ => ()) ∧
      ∀ i, (compiled options .immediate ops).image = .ok i →
        (compiled options .deferred ops).ForImages fun j =>
          ∀ state, ∃ linked,
            ((j.link intern).run state).1 = (.ok (), linked) ∧ linked.code = i.code := by
  obtain ⟨slots, t, is, h⟩ := (twins_new _ options).after hops fun _ hmem => hmem
  have hlen : t.words.length < 0x100000000 := h.deferred.words ▸ hcode
  rcases h.flatten hapart hlen with ⟨e, hd, hi⟩ | ⟨f, g, hd, hi, halike, hholds⟩
  · have hdimage : (compiled options .deferred ops).image = .error e := image_eq_error_iff.mpr hd
    have hiimage : (compiled options .immediate ops).image = .error e := image_eq_error_iff.mpr hi
    rw [hdimage, hiimage]
    exact ⟨rfl, fun i himage => (nomatch himage)⟩
  · have hdimage := image_eq_ok_iff.mpr ⟨f, hd, rfl⟩
    have hiimage := image_eq_ok_iff.mpr ⟨g, hi, rfl⟩
    refine ⟨by rw [compiled, compiled, hdimage, hiimage]; rfl, ?_⟩
    intro i himage
    cases hiimage.symm.trans himage
    refine forImages_after rfl ?_
    intro j hj
    exact h.link hpool hlen hintern halike hholds hd hj

/-- An identifier in a loop, after a literal that spells its name differently. -/
def sampleProgram : List Op :=
  [.openUnit none, .internString "Self" true false, .code .openLoop, .code (.emitFixup .exit),
    .enterFunction, .emitIdentifier (some ⟨"SELF\x00 or not", 0x500000007⟩), .emitIdentifier none,
    .leaveFunction "scene" "draw", .code (.closeLoop ⟨0, 5, 1⟩), .code (.patch 3 9)]

def sampleHost : Interner Nat := fun name => do
  modify (· + 1)
  pure (if Text.fold name = "self" then 0x500000007 else 0)

theorem sampleProgram_linked :
    ∃ i, (compiled ⟨.immediate, false, 2⟩ .immediate sampleProgram).image = .ok i ∧
      (compiled ⟨.immediate, false, 2⟩ .deferred sampleProgram).ForImages fun j =>
        ∀ state, ∃ linked,
          ((j.link sampleHost).run state).1 = (.ok (), linked) ∧ linked.code = i.code := by
  have hhost : ∀ identifier, .emitIdentifier (some identifier) ∈ sampleProgram → ∀ name,
      Text.SameName name (StringPool.cut identifier.name) →
        ∀ state, ((sampleHost name).run state).1 = identifier.handle := by
    intro identifier hmem name hname state
    obtain rfl : identifier = ⟨"SELF\x00 or not", 0x500000007⟩ := by
      simpa [sampleProgram] using hmem
    have hfold : Text.fold name = "self" := Eq.trans hname (by decide)
    show (if Text.fold name = "self" then (0x500000007 : UInt64) else 0) = 0x500000007
    rw [if_pos hfold]
  have hresult := linked_deferred_eq_immediate ⟨.immediate, false, 2⟩ sampleProgram (by decide)
    sampleHost hhost (by decide +kernel) (by decide +kernel) (by decide +kernel)
  obtain ⟨i, himage⟩ :=
    exists_image (s := compiled ⟨.immediate, false, 2⟩ .immediate sampleProgram) (by decide +kernel)
  exact ⟨i, himage, hresult.2 i himage⟩

end Session

end ScriptBackend
