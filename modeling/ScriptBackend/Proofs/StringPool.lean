import ScriptBackend.StringPool
import ScriptBackend.Proofs.Terminated

/-!
# String pools hold what they were given

`Sound` is what interning keeps true of a pool: the indices find the first entry
that answers for a text, and the entries lie one behind another. Two things
follow. Interning is a search through the entries in order, and, as long as the
pool stays below 2³² bytes, every entry's text can be read back at its offset.
-/

namespace ScriptBackend.StringPool

open Std (ExtTreeMap)
open Text (Byte)

def agrees (text wanted : String) (caseSensitive : Bool) : Bool :=
  if caseSensitive then text == wanted else Text.fold text == Text.fold wanted

def Entry.answers (e : Entry) (wanted : String) (caseSensitive tagged : Bool) : Bool :=
  e.tagged == tagged && agrees e.text wanted caseSensitive

def Entry.room (e : Entry) : Nat :=
  if e.tagged then max (Text.size e.text + 1) taggedSize.toNat else Text.size e.text + 1

def Entry.cells (e : Entry) : List Byte :=
  Text.bytes e.text ++ List.replicate (e.room - Text.size e.text) 0

/-- The number of bytes of all entries, which a pool counts as long as nothing wraps. -/
def extent (p : StringPool) : Nat := (p.entries.toList.flatMap Entry.cells).length

/-- Entries one behind another between two offsets. -/
def LaidOut : UInt32 → List Entry → UInt32 → Prop
  | start, [], stop => stop = start
  | start, e :: es, stop =>
    e.start = start ∧ e.size = reserved e.text e.tagged ∧ LaidOut (start + e.size) es stop

structure Sound (p : StringPool) : Prop where
  indexed : ∀ wanted caseSensitive tagged,
    (p.index tagged).find? wanted caseSensitive =
      p.entries.toList.findIdx? (·.answers wanted caseSensitive tagged)
  laidOut : LaidOut 0 p.entries.toList p.size
  noNul : ∀ e ∈ p.entries.toList, '\x00' ∉ e.text.toList

theorem sound_empty : Sound empty where
  indexed wanted caseSensitive tagged := by
    cases tagged <;> cases caseSensitive <;> simp [empty, index, Index.empty, Index.find?]
  laidOut := rfl
  noNul e he := by simp [empty] at he

-- ---------------------------------------------------------------------------
-- Interning
-- ---------------------------------------------------------------------------

theorem getElem?_insertIfNew (m : ExtTreeMap String Nat) (k a : String) (v : Nat) :
    (m.insertIfNew k v)[a]? = m[a]?.or (if k = a then some v else none) := by
  rw [ExtTreeMap.getElem?_insertIfNew]
  simp only [Std.compare_eq_iff_eq]
  by_cases hk : k = a
  · subst hk
    by_cases hm : k ∈ m
    · simp [hm]
    · simp [hm]
  · simp [hk]

theorem Index.find?_add (ix : Index) (text wanted : String) (position : Nat) (caseSensitive : Bool) :
    (ix.add text position).find? wanted caseSensitive =
      (ix.find? wanted caseSensitive).or
        (if agrees text wanted caseSensitive then some position else none) := by
  cases caseSensitive <;> simp [Index.find?, Index.add, getElem?_insertIfNew, agrees]

theorem laidOut_append {es : List Entry} (h : LaidOut start es e.start)
    (he : e.size = reserved e.text e.tagged) : LaidOut start (es ++ [e]) (e.start + e.size) := by
  induction es generalizing start with
  | nil =>
    cases h
    exact ⟨rfl, he, rfl⟩
  | cons x es ih => exact ⟨h.1, h.2.1, ih h.2.2⟩

theorem index_push (p : StringPool) (text : String) (tagged wantedTag : Bool) :
    (p.push text tagged).index wantedTag =
      if tagged = wantedTag then (p.index wantedTag).add text p.entries.size
      else p.index wantedTag := by
  cases tagged <;> cases wantedTag <;> rfl

theorem Sound.push (hp : Sound p) (htext : '\x00' ∉ text.toList) (tagged : Bool) :
    Sound (p.push text tagged) where
  indexed wanted caseSensitive wantedTag := by
    have hpush : (p.push text tagged).entries.toList =
        p.entries.toList ++ [⟨text, p.size, reserved text tagged, tagged⟩] := by
      simp [StringPool.push]
    rw [index_push, hpush, List.findIdx?_append, ← hp.indexed, List.findIdx?_singleton]
    by_cases htag : tagged = wantedTag
    · subst htag
      rw [if_pos rfl, Index.find?_add]
      cases h : agrees text wanted caseSensitive <;> simp [Entry.answers, h]
    · simp [htag, Entry.answers]
  laidOut := by
    simp only [StringPool.push, Array.toList_push]
    exact laidOut_append (e := ⟨text, p.size, _, tagged⟩) hp.laidOut rfl
  noNul e he := by
    simp only [StringPool.push, Array.toList_push, List.mem_append, List.mem_singleton] at he
    rcases he with he | rfl
    · exact hp.noNul e he
    · exact htext

theorem nul_not_mem_cut (text : String) : '\x00' ∉ (cut text).toList := by
  intro h
  simp only [cut, String.toList_ofList] at h
  have := List.all_takeWhile (p := (· ≠ '\x00')) (l := text.toList)
  simp only [List.all_eq_true] at this
  simpa using this _ h

/-- Interning is a search through the entries in order. -/
theorem Sound.intern_eq (hp : Sound p) (text : String) (caseSensitive tagged : Bool) :
    p.intern text caseSensitive tagged =
      match p.entries.toList.find? (·.answers (cut text) caseSensitive tagged) with
      | some e => (e.start, p)
      | none => (p.size, p.push (cut text) tagged) := by
  have hfind : ((p.index tagged).find? (cut text) caseSensitive >>= (p.entries[·]?)) =
      p.entries.toList.find? (·.answers (cut text) caseSensitive tagged) := by
    rw [hp.indexed, List.find?_eq_bind_findIdx?_getElem?]
    simp
  cases h : p.entries.toList.find? (·.answers (cut text) caseSensitive tagged) with
  | none | some e => simp only [StringPool.intern, hfind, h]

theorem Sound.intern (hp : Sound p) (text : String) (caseSensitive tagged : Bool) :
    Sound (p.intern text caseSensitive tagged).2 := by
  rw [hp.intern_eq]
  split
  · exact hp
  · exact hp.push (nul_not_mem_cut text) tagged

theorem Sound.entries_prefix (hp : Sound p) (text : String) (caseSensitive tagged : Bool) :
    p.entries.toList <+: (p.intern text caseSensitive tagged).2.entries.toList := by
  rw [hp.intern_eq]
  split
  · exact List.prefix_rfl
  · simp [StringPool.push]

theorem Sound.find?_intern (hp : Sound p) (text : String) (caseSensitive tagged : Bool) :
    ∃ e, (p.intern text caseSensitive tagged).2.entries.toList.find?
        (·.answers (cut text) caseSensitive tagged) = some e ∧
      e.start = (p.intern text caseSensitive tagged).1 := by
  rw [hp.intern_eq]
  split
  · rename_i e he
    exact ⟨e, he, rfl⟩
  · rename_i hnone
    refine ⟨⟨cut text, p.size, reserved (cut text) tagged, tagged⟩, ?_, rfl⟩
    rw [StringPool.push, Array.toList_push, List.find?_append, hnone, Option.none_or, List.find?_singleton]
    cases caseSensitive <;> simp [Entry.answers, agrees]

theorem Sound.exists_entry (hp : Sound p) (text : String) (caseSensitive tagged : Bool) :
    ∃ e ∈ (p.intern text caseSensitive tagged).2.entries.toList,
      e.start = (p.intern text caseSensitive tagged).1 ∧
      e.answers (cut text) caseSensitive tagged = true := by
  obtain ⟨e, he, hstart⟩ := hp.find?_intern text caseSensitive tagged
  exact ⟨e, List.mem_of_find?_eq_some he, hstart, by simpa using List.find?_some he⟩

-- ---------------------------------------------------------------------------
-- Names
-- ---------------------------------------------------------------------------

/-- The entry that stands for a name: the first without a tag, up to case. -/
def Names (p : StringPool) (e : Entry) : Prop :=
  p.entries.toList.find? (·.answers e.text false false) = some e

theorem answers_congr {a b : String} (h : Text.SameName a b) (e : Entry) (tagged : Bool) :
    e.answers a false tagged = e.answers b false tagged := by
  have hfold : Text.fold a = Text.fold b := h
  simp [Entry.answers, agrees, hfold]

theorem Sound.names_intern (hp : Sound p) (text : String) :
    ∃ e, Names (p.intern text false false).2 e ∧ e.start = (p.intern text false false).1 := by
  obtain ⟨e, he, hstart⟩ := hp.find?_intern text false false
  have hanswers := List.find?_some he
  have hsame : Text.SameName e.text (cut text) := by
    simpa [Entry.answers, agrees, Text.SameName] using (Bool.and_eq_true_iff.mp hanswers).2
  refine ⟨e, ?_, hstart⟩
  rw [Names, funext fun x => answers_congr hsame x false]
  exact he

theorem Names.mem (h : Names p e) : e ∈ p.entries.toList := List.mem_of_find?_eq_some h

theorem Names.untagged (h : Names p e) : e.tagged = false := by
  have hanswers := List.find?_some h
  simpa using (Bool.and_eq_true_iff.mp hanswers).1

theorem Names.extend (h : Names p e) (hpq : p.entries.toList <+: q.entries.toList) : Names q e := by
  obtain ⟨later, hlater⟩ := hpq
  have hfound : p.entries.toList.find? (·.answers e.text false false) = some e := h
  rw [Names, ← hlater, List.find?_append, hfound]
  rfl

theorem Names.unique (he : Names p e) (hf : Names p f) (h : Text.SameName e.text f.text) : e = f := by
  rw [Names, funext fun x => answers_congr h x false] at he
  exact Option.some.inj (he.symm.trans hf)

-- ---------------------------------------------------------------------------
-- Layout
-- ---------------------------------------------------------------------------

theorem Entry.size_lt_room (e : Entry) : Text.size e.text < e.room := by
  unfold Entry.room
  split <;> omega

@[simp] theorem Entry.length_cells (e : Entry) : e.cells.length = e.room := by
  have := e.size_lt_room
  simp [Entry.cells]
  omega

theorem toNat_reserved {e : Entry} (h : e.room < 0x100000000) :
    (reserved e.text e.tagged).toNat = e.room := by
  have hsize := e.size_lt_room
  have hplain : (UInt32.ofNat (Text.size e.text) + 1).toNat = Text.size e.text + 1 := by
    simp
    omega
  cases htag : e.tagged with
  | false => simp [reserved, Entry.room, htag, hplain]
  | true =>
    simp only [reserved, Entry.room, htag, Bool.true_and, decide_eq_true_eq,
      UInt32.lt_iff_toNat_lt, hplain, if_true]
    split
    · omega
    · rw [hplain]
      omega

theorem overlay_append (bs front back : List Byte) :
    overlay (front ++ List.replicate bs.length 0 ++ back).toArray front.length bs =
      (front ++ bs ++ back).toArray := by
  induction bs generalizing front with
  | nil => simp [overlay]
  | cons b bs ih =>
    have hset : (front ++ List.replicate (b :: bs).length 0 ++ back).toArray.setIfInBounds
        front.length b = ((front ++ [b]) ++ List.replicate bs.length 0 ++ back).toArray := by
      simp [List.replicate_succ]
    rw [overlay, hset]
    simpa using ih (front ++ [b])

theorem layOut_append {e : Entry} {front : List Byte} (hsize : e.size.toNat = e.room)
    (hstart : e.start.toNat = front.length) :
    layOut (front ++ List.replicate (e.room + n) 0).toArray e =
      ((front ++ e.cells) ++ List.replicate n 0).toArray := by
  have hroom := e.size_lt_room
  have htake : (Text.bytes e.text).take (e.size.toNat - 1) = Text.bytes e.text := by
    apply List.take_of_length_le
    rw [Text.length_bytes, hsize]
    omega
  have hzeros : List.replicate (e.room + n) (0 : Byte) =
      List.replicate (Text.bytes e.text).length 0 ++
        List.replicate (e.room - Text.size e.text + n) 0 := by
    rw [Text.length_bytes, List.replicate_append_replicate]
    congr 1
    omega
  rw [layOut, htake, hstart, hzeros, ← List.append_assoc, overlay_append]
  simp [Entry.cells, ← List.replicate_append_replicate]

/-- Laying out the entries fills the zeros behind what has been laid out already. -/
theorem foldl_layOut {es : List Entry} (front : List Byte) (h : LaidOut start es stop)
    (hstart : start.toNat = front.length)
    (hfits : front.length + (es.flatMap Entry.cells).length < 0x100000000) :
    es.foldl layOut (front ++ List.replicate (es.flatMap Entry.cells).length 0).toArray =
      (front ++ es.flatMap Entry.cells).toArray := by
  induction es generalizing front start with
  | nil => simp
  | cons e es ih =>
    obtain ⟨he, hsize, hes⟩ := h
    simp only [List.flatMap_cons, List.length_append, Entry.length_cells] at hfits ⊢
    have hroom : e.size.toNat = e.room := by
      rw [hsize]
      exact toNat_reserved (by omega)
    have hlay : layOut (front ++ List.replicate (e.room + (es.flatMap Entry.cells).length) 0).toArray e =
        ((front ++ e.cells) ++ List.replicate (es.flatMap Entry.cells).length 0).toArray :=
      layOut_append hroom (by rw [he, hstart])
    rw [List.foldl_cons, hlay, ih _ hes]
    · simp
    · rw [UInt32.toNat_add, hroom, hstart, List.length_append, Entry.length_cells]
      omega
    · simp only [List.length_append, Entry.length_cells]
      omega

theorem LaidOut.size_eq {es : List Entry} (h : LaidOut start es stop)
    (hfits : start.toNat + (es.flatMap Entry.cells).length < 0x100000000) :
    stop.toNat = start.toNat + (es.flatMap Entry.cells).length := by
  induction es generalizing start with
  | nil =>
    cases h
    simp
  | cons e es ih =>
    obtain ⟨-, hsize, hes⟩ := h
    simp only [List.flatMap_cons, List.length_append, Entry.length_cells] at hfits ⊢
    have hnext : (start + e.size).toNat = start.toNat + e.room := by
      rw [UInt32.toNat_add, hsize, toNat_reserved (by omega)]
      omega
    rw [ih hes (by omega), hnext]
    omega

theorem Sound.bytes_eq (hp : Sound p) (hfits : p.extent < 0x100000000) :
    p.bytes = p.entries.toList.flatMap Entry.cells := by
  have hsize := hp.laidOut.size_eq (by simpa [extent] using hfits)
  simp only [UInt32.toNat_zero, Nat.zero_add] at hsize
  have hfold := foldl_layOut [] hp.laidOut rfl (by simpa [extent] using hfits)
  simp only [List.nil_append] at hfold
  rw [bytes, hsize, ← Array.foldl_toList, ← List.toArray_replicate, hfold]

theorem LaidOut.before {es : List Entry} (h : LaidOut start (es ++ e :: later) stop) :
    LaidOut start es e.start := by
  induction es generalizing start with
  | nil => exact h.1
  | cons x es ih => exact ⟨h.1, h.2.1, ih h.2.2⟩

theorem Sound.textAt?_start (hp : Sound p) (hfits : p.extent < 0x100000000) (he : e ∈ p.entries.toList) :
    Text.textAt? p.bytes e.start = some e.text := by
  obtain ⟨front, back, hsplit⟩ := List.append_of_mem he
  have hlaid := hp.laidOut
  rw [hsplit] at hlaid
  have hfront : (front.flatMap Entry.cells).length ≤ p.extent := by
    rw [extent, hsplit, List.flatMap_append, List.length_append]
    exact Nat.le_add_right ..
  have hstart : e.start.toNat = (front.flatMap Entry.cells).length := by
    rw [hlaid.before.size_eq (by rw [UInt32.toNat_zero]; omega), UInt32.toNat_zero, Nat.zero_add]
  have hzeros : e.cells = Text.bytes e.text ++
      0 :: List.replicate (e.room - Text.size e.text - 1) 0 := by
    have := e.size_lt_room
    rw [Entry.cells, ← List.replicate_succ]
    congr 2
    omega
  rw [hp.bytes_eq hfits, hsplit, List.flatMap_append, List.flatMap_cons, hzeros, List.append_assoc,
    List.cons_append]
  exact Text.textAt?_append (Text.zero_not_mem_bytes (hp.noNul e he)) _ _ hstart

end ScriptBackend.StringPool
