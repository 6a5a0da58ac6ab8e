import ObjectGraph.Proofs.Wire.Fields
import ObjectGraph.Wire.Writer

/-! Programs of a writer and of a reader. A writer appends all of a field's bytes or none
(`Writer.write_eq_put`), so its buffer is made of the fields that were written, and a reader that
asks for those in turn gets their values and uses the buffer up (`readAll_writeAll`). -/
namespace ObjectGraph.Wire

def Item.encode : Item → Except Error Bytes
  | .byte b => .ok [b]
  | .flag b => .ok (encodeFlag b)
  | .u32 n => .ok (encodeU32 n)
  | .count n => encodeCount n
  | .bytes bs => encodeBytes bs
  | .text s max => encodeText max s

def Item.datum : Item → Datum
  | .byte b => .byte b
  | .flag b => .flag b
  | .u32 n => .u32 n
  | .count n => .count n
  | .bytes bs => .bytes bs
  | .text s _ => .text s

/-- The request asks for a field of the item's kind, and admits its count or length. -/
inductive Item.ReadBy : Item → Request → Prop
  | byte (b : UInt8) : ReadBy (.byte b) .byte
  | flag (b : Bool) : ReadBy (.flag b) .flag
  | u32 (n : UInt32) : ReadBy (.u32 n) .u32
  | count {n max : Nat} : n ≤ max → ReadBy (.count n) (.count max)
  | bytes {bs : Bytes} {max : Nat} : bs.length ≤ max → ReadBy (.bytes bs) (.bytes max)
  | text {s : String} {bound max : Nat} : (Utf8.ofString s).length ≤ max →
      ReadBy (.text s bound) (.text max)

/-- The items that were written, going by the outcomes. -/
def succeeded : List Item → List (Except Error Unit) → List Item
  | item :: items, .ok () :: outcomes => item :: succeeded items outcomes
  | _ :: items, .error _ :: outcomes => succeeded items outcomes
  | _, _ => []

namespace Writer

variable (w : Writer)

/-- Bytes appended as a whole, or nothing at all. -/
def put : Except Error Bytes → Except Error Unit × Writer
  | .ok bs => (.ok (), w.append bs)
  | .error e => (.error e, w)

theorem writeCount_eq_put (n : Nat) : w.writeCount n = w.put (encodeCount n) := by
  unfold writeCount encodeCount
  split
  · next hn =>
    have hmax : maxCount = 2 ^ 32 - 1 := rfl
    have hcount : (UInt32.ofNat n).toNat = n := UInt32.toNat_ofNat_of_lt' (by
      rw [UInt32.size]
      omega)
    rw [writeU32, hcount]
    rfl
  · rfl

/-- A length that is refused is refused before a byte of the field is written. -/
theorem writeBytes_eq_put (bs : Bytes) : w.writeBytes bs = w.put (encodeBytes bs) := by
  rw [writeBytes, writeCount_eq_put, encodeBytes]
  rcases encodeCount bs.length with e | length
  · rfl
  · simp only [put, append_append]
    rfl

theorem writeText_eq_put (max : Nat) (s : String) :
    w.writeText max s = w.put (encodeText max s) := by
  unfold writeText encodeText
  dsimp only
  split
  · rfl
  · exact w.writeBytes_eq_put _

/-- A field is written as a whole, or the buffer stays as it was. -/
theorem write_eq_put (item : Item) : w.write item = w.put item.encode := by
  cases item with
  | byte | flag | u32 => rfl
  | count n => exact w.writeCount_eq_put n
  | bytes bs => exact w.writeBytes_eq_put bs
  | text s max => exact w.writeText_eq_put max s

theorem write_error {w w' : Writer} {item : Item} {e : Error}
    (h : w.write item = (.error e, w')) : w' = w := by
  rw [write_eq_put] at h
  rcases hi : item.encode with e' | bs <;> rw [hi] at h <;> cases h
  rfl

/-- A program of a writer goes on behind a field that was refused. -/
theorem outcomes_writeAll (items : List Item) :
    (w.writeAll items).1 = items.map fun item => item.encode.map fun _ => () := by
  induction items generalizing w with
  | nil => rfl
  | cons item items ih =>
    rw [writeAll, write_eq_put, List.map_cons]
    rcases item.encode with e | bs
    · exact congrArg _ (ih w)
    · exact congrArg _ (ih (w.append bs))

/-- A program of a writer appends the bytes of the items that were written, in turn. -/
theorem writeAll_appends (items : List Item) :
    ∃ parts, List.Forall₂ (fun item bs => item.encode = .ok bs)
        (succeeded items (w.writeAll items).1) parts ∧
      (w.writeAll items).2 = w.append parts.flatten := by
  induction items generalizing w with
  | nil => exact ⟨[], .nil, by simp [writeAll, append]⟩
  | cons item items ih =>
    rw [writeAll, write_eq_put]
    rcases hi : item.encode with e | bs
    · exact ih w
    · obtain ⟨parts, hparts, hw⟩ := ih (w.append bs)
      refine ⟨bs :: parts, .cons hi hparts, ?_⟩
      rw [List.flatten_cons, ← append_append]
      exact hw

end Writer

/-- A field is read back by a request that admits it, and the bytes behind it are left. -/
theorem read_append {item : Item} {bs : Bytes} (h : item.encode = .ok bs) {request : Request}
    (hr : item.ReadBy request) (rest : Bytes) :
    (Reader.mk (bs ++ rest)).read request = (.ok item.datum, ⟨rest⟩) := by
  cases hr with
  | byte b =>
    cases h
    rfl
  | flag b =>
    cases h
    rw [Reader.read, Reader.apply, readFlag_append]
    rfl
  | u32 n =>
    cases h
    rw [Reader.read, Reader.apply, readU32_append]
    rfl
  | count hm =>
    rw [Reader.read, Reader.apply, readCount_append h, if_neg (by omega)]
    rfl
  | bytes hm =>
    rw [Reader.read, Reader.apply, readBytes_append h, if_neg (by omega)]
    rfl
  | text hm =>
    rw [Reader.read, Reader.apply, readText_append h, if_neg (by omega)]
    rfl

/-- Fields behind each other are read back in turn. -/
theorem readAll_flatten {items : List Item} {parts : List Bytes} {requests : List Request}
    (h : List.Forall₂ (fun item bs => item.encode = .ok bs) items parts)
    (hr : List.Forall₂ Item.ReadBy items requests) (rest : Bytes) :
    ((Reader.mk (parts.flatten ++ rest)).readAll requests).map Prod.fst =
        items.map (fun item => .ok item.datum) ∧
      (((Reader.mk (parts.flatten ++ rest)).readAll requests).map Prod.snd).getLastD
        ⟨parts.flatten ++ rest⟩ = ⟨rest⟩ := by
  induction h generalizing requests with
  | nil =>
    cases hr
    exact ⟨rfl, rfl⟩
  | cons hi h ih =>
    cases hr with
    | cons hq hr =>
      obtain ⟨houtcomes, hlast⟩ := ih hr
      rw [List.flatten_cons, List.append_assoc, Reader.readAll, read_append hi hq]
      constructor
      · rw [List.map_cons, List.map_cons, houtcomes]
      · rw [List.map_cons, List.getLastD_cons]
        exact hlast

/-- A reader undoes a writer. The fields that have bytes are written and the others refused, each
for its own reason; a write that fails leaves the buffer as it was, so that in the end the buffer is
made of the bytes of the fields that were written. A reader that asks for those fields in turn, with
bounds that admit them, gets their values, and nothing is left to read. -/
theorem readAll_writeAll (items : List Item) :
    let outcomes := (({} : Writer).writeAll items).1
    let w := (({} : Writer).writeAll items).2
    let written := succeeded items outcomes
    outcomes = items.map (fun item => item.encode.map fun _ => ()) ∧
    (∀ (v v' : Writer) (item : Item) (e : Error), v.write item = (.error e, v') → v' = v) ∧
    (∃ parts, List.Forall₂ (fun item bs => item.encode = .ok bs) written parts ∧
      w.buffer = parts.flatten) ∧
    ∀ requests, List.Forall₂ Item.ReadBy written requests →
      ((Reader.mk w.buffer).readAll requests).map Prod.fst =
        written.map (fun item => .ok item.datum) ∧
      ((((Reader.mk w.buffer).readAll requests).map Prod.snd).getLastD ⟨w.buffer⟩).remaining = 0 := by
  obtain ⟨parts, hparts, hw⟩ := Writer.writeAll_appends {} items
  have hbuffer : (({} : Writer).writeAll items).2.buffer = parts.flatten := by
    rw [hw]
    exact List.nil_append _
  refine ⟨Writer.outcomes_writeAll {} items, fun _ _ _ _ => Writer.write_error,
    ⟨parts, hparts, hbuffer⟩, fun requests hr => ?_⟩
  obtain ⟨houtcomes, hlast⟩ := readAll_flatten hparts hr []
  rw [List.append_nil, ← hbuffer] at houtcomes hlast
  refine ⟨houtcomes, ?_⟩
  rw [hlast]
  rfl

/-- A text that is too long for its bound and a count that is too great for its field stand between
fields that are written. -/
theorem readAll_writeAll_refused :
    let items : List Item := [.text "né" 8, .text "né" 2, .count 0x100000000, .flag true, .bytes [7]]
    let requests : List Request := [.text 3, .flag, .bytes 1]
    let w := (({} : Writer).writeAll items).2
    w.buffer = [3, 0, 0, 0, 0x6e, 0xc3, 0xa9, 1, 1, 0, 0, 0, 7] ∧
    List.Forall₂ Item.ReadBy (succeeded items (({} : Writer).writeAll items).1) requests ∧
    ((Reader.mk w.buffer).readAll requests).map Prod.fst =
      [.ok (.text "né"), .ok (.flag true), .ok (.bytes [7])] ∧
    ((((Reader.mk w.buffer).readAll requests).map Prod.snd).getLastD ⟨w.buffer⟩).remaining = 0 := by
  intro items requests w
  have hr : List.Forall₂ Item.ReadBy (succeeded items (({} : Writer).writeAll items).1)
      requests := by
    have hs : succeeded items (({} : Writer).writeAll items).1 =
        [.text "né" 8, .flag true, .bytes [7]] := by decide
    rw [hs]
    exact .cons (.text (by decide)) (.cons (.flag true) (.cons (.bytes (by decide)) .nil))
  obtain ⟨hvalues, hleft⟩ := (readAll_writeAll items).2.2.2 requests hr
  exact ⟨by decide, hr, hvalues, hleft⟩

end ObjectGraph.Wire
