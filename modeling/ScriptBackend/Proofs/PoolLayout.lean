import ScriptBackend.Proofs.Interning
import ScriptBackend.Proofs.Tiling

/-!
# How the entries of a pool lie

As long as a pool stays below 2³² bytes its entries tile them in the order in
which they were made. All else follows from that: the bytes are the texts with
their zeros, an offset is found by halving, and a tag written over one entry
leaves the texts of all others as they are.
-/

namespace ScriptBackend.StringPool

open Stretch (Tiles Partition)
open Text (Byte)

def Entry.stretch (e : Entry) : Stretch := ⟨e.start.toNat, e.size.toNat⟩

def stretches (p : StringPool) : List Stretch := p.entries.toList.map Entry.stretch

-- ---------------------------------------------------------------------------
-- Tiling
-- ---------------------------------------------------------------------------

theorem LaidOut.tiles {es : List Entry} (h : LaidOut start es stop)
    (hfits : start.toNat + (es.flatMap Entry.cells).length < 0x100000000) :
    Tiles start.toNat (es.map Entry.stretch) stop.toNat ∧ ∀ e ∈ es, e.size.toNat = e.room := by
  induction es generalizing start with
  | nil =>
    cases h
    exact ⟨rfl, fun e he => (nomatch he)⟩
  | cons e es ih =>
    obtain ⟨rfl, hsize, hes⟩ := h
    simp only [List.flatMap_cons, List.length_append, Entry.length_cells] at hfits
    have hroom : e.size.toNat = e.room := by
      rw [hsize]
      exact toNat_reserved (by omega)
    have hnext : (e.start + e.size).toNat = e.start.toNat + e.size.toNat := by
      rw [UInt32.toNat_add]
      omega
    obtain ⟨htiles, hrooms⟩ := ih hes (by omega)
    rw [hnext] at htiles
    exact ⟨⟨rfl, htiles⟩, List.forall_mem_cons.mpr ⟨hroom, hrooms⟩⟩

section Fitting

variable {p : StringPool} (hp : Sound p) (hfits : p.extent < 0x100000000)

include hp hfits

theorem Sound.tiles : Tiles 0 p.stretches p.size.toNat :=
  (hp.laidOut.tiles (by simpa [extent] using hfits)).1

theorem Sound.size_eq_room (he : e ∈ p.entries.toList) : e.size.toNat = e.room :=
  (hp.laidOut.tiles (by simpa [extent] using hfits)).2 e he

theorem Sound.size_lt (he : e ∈ p.entries.toList) : Text.size e.text < e.size.toNat := by
  rw [hp.size_eq_room hfits he]
  exact e.size_lt_room

theorem Sound.taggedSize_le (he : e ∈ p.entries.toList) (htag : e.tagged = true) :
    taggedSize.toNat ≤ e.size.toNat := by
  rw [hp.size_eq_room hfits he, Entry.room, if_pos htag]
  exact Nat.le_max_right ..

theorem Sound.bounds (he : e ∈ p.entries.toList) : e.start.toNat + e.size.toNat ≤ p.size.toNat :=
  ((hp.tiles hfits).bounds (List.mem_map_of_mem he)).2

theorem Sound.apart :
    p.entries.toList.Pairwise fun e f => e.start.toNat + e.size.toNat ≤ f.start.toNat :=
  List.pairwise_map.mp (hp.tiles hfits).apart

theorem Sound.ascending : p.entries.toList.Pairwise fun e f => e.start.toNat < f.start.toNat := by
  refine (hp.apart hfits).imp_of_mem ?_
  intro e f he _ happart
  have := hp.size_lt hfits he
  omega

theorem Sound.bytes_eq_padded :
    p.bytes = p.entries.toList.flatMap fun e =>
      Text.bytes e.text ++ List.replicate (e.size.toNat - Text.size e.text) 0 := by
  rw [hp.bytes_eq hfits, List.flatMap_def, List.flatMap_def]
  congr 1
  apply List.map_congr_left
  intro e he
  rw [hp.size_eq_room hfits he, Entry.cells]

end Fitting

-- ---------------------------------------------------------------------------
-- Laying out in range
-- ---------------------------------------------------------------------------

/-- `layOut` with its accesses checked: an entry has a last byte, and what is copied ends within
the buffer. -/
def layOut? (buffer : Array Byte) (e : Entry) : Option (Array Byte) :=
  if 0 < e.size.toNat ∧ e.start.toNat + min (Text.size e.text) (e.size.toNat - 1) ≤ buffer.size then
    some (layOut buffer e)
  else none

theorem size_overlay (buffer : Array Byte) (i : Nat) (bs : List Byte) :
    (overlay buffer i bs).size = buffer.size := by
  induction bs generalizing buffer i with
  | nil => rfl
  | cons b bs ih => simp [overlay, ih]

theorem foldlM_layOut? {es : List Entry}
    (h : ∀ e ∈ es, Text.size e.text < e.size.toNat ∧ e.start.toNat + e.size.toNat ≤ buffer.size) :
    es.foldlM layOut? buffer = some (es.foldl layOut buffer) := by
  induction es generalizing buffer with
  | nil => rfl
  | cons e es ih =>
    obtain ⟨⟨hlt, hle⟩, hes⟩ := List.forall_mem_cons.mp h
    have hlay : layOut? buffer e = some (layOut buffer e) := if_pos (by omega)
    rw [List.foldlM_cons, hlay]
    exact ih (by simpa only [layOut, size_overlay] using hes)

theorem Sound.foldlM_layOut? (hp : Sound p) (hfits : p.extent < 0x100000000) :
    p.entries.toList.foldlM layOut? (Array.replicate p.size.toNat 0) = some p.bytes.toArray := by
  rw [StringPool.foldlM_layOut?]
  · rw [bytes, ← Array.foldl_toList]
  · intro e he
    rw [Array.size_replicate]
    exact ⟨hp.size_lt hfits he, hp.bounds hfits he⟩

-- ---------------------------------------------------------------------------
-- Binary search
-- ---------------------------------------------------------------------------

def Ascending (entries : Array Entry) : Prop :=
  ∀ (j k : Nat) (e f : Entry), entries[j]? = some e → entries[k]? = some f → j < k →
    e.start.toNat < f.start.toNat

theorem ascending_of_pairwise {entries : Array Entry}
    (h : entries.toList.Pairwise fun e f => e.start.toNat < f.start.toNat) : Ascending entries := by
  intro j k e f he hf hjk
  rw [← Array.getElem?_toList] at he hf
  obtain ⟨hj, rfl⟩ := List.getElem?_eq_some_iff.mp he
  obtain ⟨hk, rfl⟩ := List.getElem?_eq_some_iff.mp hf
  exact List.pairwise_iff_getElem.mp h j k hj hk hjk

theorem Ascending.lt_iff {entries : Array Entry} {j k : Nat} (h : Ascending entries)
    (he : entries[j]? = some e) (hf : entries[k]? = some f) : j < k ↔ e.start.toNat < f.start.toNat := by
  refine ⟨h j k e f he hf, fun hlt => ?_⟩
  rcases Nat.lt_trichotomy j k with hjk | rfl | hkj
  · exact hjk
  · cases Option.some.inj (he.symm.trans hf)
    exact absurd hlt (Nat.lt_irrefl _)
  · exact absurd (h k j f e hf he hkj) (Nat.lt_asymm hlt)

/-- Each half that is left out starts before the offset or behind it. -/
theorem Ascending.search_eq_some_iff {entries : Array Entry} (h : Ascending entries)
    (hhi : hi ≤ entries.size) :
    search entries offset lo hi = some e ↔
      ∃ k, lo ≤ k ∧ k < hi ∧ entries[k]? = some e ∧ e.start = offset := by
  fun_induction search entries offset lo hi with
  | case1 lo hi hlt mid hnone =>
    have : entries.size ≤ (lo + hi) / 2 := Array.getElem?_eq_none_iff.mp hnone
    omega
  | case2 lo hi hlt mid x hx heq =>
    constructor
    · rintro ⟨⟩
      exact ⟨(lo + hi) / 2, by omega, by omega, hx, heq⟩
    · rintro ⟨k, -, -, hk, hstart⟩
      have hbelow := h.lt_iff hk hx
      have habove := h.lt_iff hx hk
      rw [hstart, heq] at hbelow habove
      obtain rfl : k = mid := by omega
      exact hx.symm.trans hk
  | case3 lo hi hlt mid x hx hne hless ih =>
    rw [ih hhi]
    constructor
    · rintro ⟨k, hlo, hk⟩
      exact ⟨k, by omega, hk⟩
    · rintro ⟨k, -, hkhi, hk, rfl⟩
      exact ⟨k, (h.lt_iff hx hk).mpr hless, hkhi, hk, rfl⟩
  | case4 lo hi hlt mid x hx hne hless ih =>
    rw [ih (by omega)]
    constructor
    · rintro ⟨k, hlo, hkmid, hk⟩
      exact ⟨k, hlo, by omega, hk⟩
    · rintro ⟨k, hlo, -, hk, rfl⟩
      have hgreater : e.start.toNat < x.start.toNat := by
        have hne : x.start.toNat ≠ e.start.toNat := fun heq => hne (UInt32.toNat_inj.mp heq)
        have hless : ¬ x.start.toNat < e.start.toNat := hless
        omega
      exact ⟨k, hlo, (h.lt_iff hk hx).mpr hgreater, hk, rfl⟩
  | case5 lo hi hlt =>
    constructor
    · rintro ⟨⟩
    · rintro ⟨k, hlo, hk, -⟩
      omega

theorem Sound.entryAt?_eq_some_iff (hp : Sound p) (hfits : p.extent < 0x100000000) :
    p.entryAt? offset = some e ↔ e ∈ p.entries.toList ∧ e.start = offset := by
  rw [entryAt?, (ascending_of_pairwise (hp.ascending hfits)).search_eq_some_iff (Nat.le_refl _)]
  constructor
  · rintro ⟨k, -, -, hk, hstart⟩
    exact ⟨Array.mem_toList_iff.mpr (Array.mem_of_getElem? hk), hstart⟩
  · rintro ⟨he, hstart⟩
    obtain ⟨k, hk⟩ := List.mem_iff_getElem?.mp he
    rw [Array.getElem?_toList] at hk
    exact ⟨k, Nat.zero_le k, (Array.getElem?_eq_some_iff.mp hk).1, hk, hstart⟩

-- ---------------------------------------------------------------------------
-- Tags written over entries
-- ---------------------------------------------------------------------------

theorem getElem?_overlay {buffer : Array Byte} {bs : List Byte} (h : n < i ∨ i + bs.length ≤ n) :
    (overlay buffer i bs)[n]? = buffer[n]? := by
  induction bs generalizing buffer i with
  | nil => rfl
  | cons b bs ih =>
    simp only [List.length_cons] at h
    rw [overlay, ih (by omega), Array.getElem?_setIfInBounds, if_neg (by omega)]

/-- A text depends on its own bytes and the zero behind them only. -/
theorem textAt?_congr (h : Text.textAt? pool offset = some text)
    (hsame : ∀ n, offset.toNat ≤ n → n ≤ offset.toNat + Text.size text → pool'[n]? = pool[n]?) :
    Text.textAt? pool' offset = some text := by
  obtain ⟨front, back, rfl, hlen, hzero⟩ := Text.textAt?_eq_some_iff.mp h
  have hbyte : ∀ j, j ≤ Text.size text → pool'[offset.toNat + j]? = (Text.bytes text ++ [0])[j]? := by
    intro j hj
    rw [hsame _ (by omega) (by omega), ← hlen, List.getElem?_append_right (by omega),
      Nat.add_sub_cancel_left, List.append_cons, List.getElem?_append_left]
    simp only [List.length_append, Text.length_bytes, List.length_singleton]
    omega
  have htail : (pool'.drop offset.toNat).take (Text.size text + 1) = Text.bytes text ++ [0] :=
    take_drop_eq (by simp) fun j hj => hbyte j (Nat.le_of_lt_succ hj)
  have hlt : offset.toNat < pool'.length := by
    apply Nat.lt_of_not_le
    intro hge
    have hnone := (hbyte 0 (Nat.zero_le _)).symm.trans (List.getElem?_eq_none hge)
    simp at hnone
  refine Text.textAt?_eq_some_iff.mpr
    ⟨pool'.take offset.toNat, (pool'.drop offset.toNat).drop (Text.size text + 1), ?_, ?_, hzero⟩
  · rw [List.append_cons, ← htail, List.take_append_drop, List.take_append_drop]
  · exact List.length_take_of_le (Nat.le_of_lt hlt)

theorem Sound.textAt?_overlay (hp : Sound p) (hfits : p.extent < 0x100000000)
    (he : e ∈ p.entries.toList) (htag : e.tagged = true) (hlen : tag.length = taggedSize.toNat)
    (hf : f ∈ p.entries.toList) (hne : f ≠ e) :
    Text.textAt? (overlay p.bytes.toArray e.start.toNat tag).toList f.start = some f.text := by
  apply textAt?_congr (hp.textAt?_start hfits hf)
  intro n hlo hhi
  have hsize := hp.size_lt hfits hf
  have hroom := hp.taggedSize_le hfits he htag
  have houtside : ¬ (e.start.toNat ≤ n ∧ n < e.start.toNat + e.size.toNat) :=
    (hp.tiles hfits).not_mem hf he hne ⟨hlo, Nat.lt_of_le_of_lt hhi (Nat.add_lt_add_left hsize _)⟩
  rw [Array.getElem?_toList, getElem?_overlay (by omega), List.getElem?_toArray]

-- ---------------------------------------------------------------------------
-- Layout
-- ---------------------------------------------------------------------------

/-- How a pool lies in its bytes. -/
structure Layout (p : StringPool) : Prop where
  tiles : Tiles 0 p.stretches p.size.toNat
  partition : Partition p.stretches p.size.toNat
  noNul : ∀ e ∈ p.entries.toList, '\x00' ∉ e.text.toList
  room : ∀ e ∈ p.entries.toList, Text.size e.text + 1 ≤ e.size.toNat
  tagRoom : ∀ e ∈ p.entries.toList, e.tagged = true → 7 ≤ e.size.toNat
  inRange : p.entries.toList.foldlM layOut? (Array.replicate p.size.toNat 0) = some p.bytes.toArray
  padded : p.bytes = p.entries.toList.flatMap fun e =>
    Text.bytes e.text ++ List.replicate (e.size.toNat - Text.size e.text) 0
  found : ∀ e ∈ p.entries.toList, p.get? e.start = some e.text ∧ p.sizeAt? e.start = some e.size
  missed : ∀ offset, (∀ e ∈ p.entries.toList, e.start ≠ offset) →
    p.get? offset = none ∧ p.sizeAt? offset = none
  tagsApart : ∀ e ∈ p.entries.toList, e.tagged = true → ∀ tag : List Byte, tag.length = 7 →
    ∀ f ∈ p.entries.toList, f ≠ e →
      Text.textAt? (overlay p.bytes.toArray e.start.toNat tag).toList f.start =
          Text.textAt? p.bytes f.start ∧
        Text.textAt? p.bytes f.start = some f.text

theorem Sound.layout (hp : Sound p) (hfits : p.extent < 0x100000000) : Layout p where
  tiles := hp.tiles hfits
  partition := (hp.tiles hfits).partition
  noNul := hp.noNul
  room _ he := hp.size_lt hfits he
  tagRoom _ he htag := hp.taggedSize_le hfits he htag
  inRange := hp.foldlM_layOut? hfits
  padded := hp.bytes_eq_padded hfits
  found e he := by
    have hat : p.entryAt? e.start = some e := (hp.entryAt?_eq_some_iff hfits).mpr ⟨he, rfl⟩
    simp [get?, sizeAt?, hat]
  missed offset hnone := by
    have hat : p.entryAt? offset = none := by
      rw [Option.eq_none_iff_forall_ne_some]
      intro e he
      obtain ⟨hmem, hstart⟩ := (hp.entryAt?_eq_some_iff hfits).mp he
      exact hnone e hmem hstart
    simp [get?, sizeAt?, hat]
  tagsApart e he htag tag hlen f hf hne := by
    have htext := hp.textAt?_start hfits hf
    exact ⟨(hp.textAt?_overlay hfits he htag hlen hf hne).trans htext.symm, htext⟩

theorem Sound.bytes_prefix (hp : Sound p) (hq : Sound q) (hp' : p.extent < 0x100000000)
    (hq' : q.extent < 0x100000000) (h : p.entries.toList <+: q.entries.toList) : p.bytes <+: q.bytes := by
  obtain ⟨later, hlater⟩ := h
  rw [hp.bytes_eq hp', hq.bytes_eq hq', ← hlater, List.flatMap_append]
  exact List.prefix_append _ _

/-- Whatever a pool was asked for, its entries tile its bytes as long as these are fewer than 2³².
They can be laid out without leaving the buffer, are found at their offsets and nowhere else, leave
room for a tag where one may be written, and stay where they are when more is interned. -/
theorem entries_tile_pool (requests : List Request) :
    let p := empty.after requests
    p.extent < 0x100000000 →
      p.Layout ∧
        ∀ later, .reset ∉ later → (p.after later).extent < 0x100000000 →
          p.bytes <+: (p.after later).bytes := by
  intro p hfits
  have hp : Sound p := sound_after requests
  refine ⟨hp.layout hfits, ?_⟩
  intro later hlater hfits'
  obtain ⟨hsound, hprefix⟩ := hp.entries_after hlater
  exact hp.bytes_prefix hsound hfits hfits' hprefix

/-- An empty text, a short and a long tagged one, and characters of several bytes. -/
def sampleTexts : List Request :=
  [.internInt 5, .reset, .intern "" true false, .intern "ab" false true, .intern "äß" true false,
    .intern "a long name" true true, .intern "AB" false true]

theorem sampleTexts_tile :
    let p := empty.after sampleTexts
    p.extent < 0x100000000 ∧ p.get? 8 = some "äß" ∧ p.get? 7 = none ∧
      Text.textAt? (overlay p.bytes.toArray 1 [1, 2, 3, 4, 5, 6, 7]).toList 8 = some "äß" ∧
      p.bytes <+: (p.after [.intern "more" true false]).bytes := by
  intro p
  have hfits : p.extent < 0x100000000 := by decide +kernel
  obtain ⟨hlayout, hmore⟩ := entries_tile_pool sampleTexts hfits
  have hsharp : (⟨"äß", 8, 5, false⟩ : Entry) ∈ p.entries.toList := by decide +kernel
  have htagged : (⟨"ab", 1, 7, true⟩ : Entry) ∈ p.entries.toList := by decide +kernel
  refine ⟨hfits, (hlayout.found _ hsharp).1, (hlayout.missed 7 (by decide +kernel)).1, ?_, ?_⟩
  · obtain ⟨hsame, htext⟩ := hlayout.tagsApart _ htagged rfl [1, 2, 3, 4, 5, 6, 7] rfl _ hsharp (by decide)
    exact hsame.trans htext
  · exact hmore _ (by decide) (by decide +kernel)

end ScriptBackend.StringPool
