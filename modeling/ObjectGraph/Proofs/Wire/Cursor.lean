import ObjectGraph.Proofs.Wire.Programs
import ObjectGraph.Wire.Cursor

/-! A cursor within its buffer. Every step does what the reader does to the bytes unread
(`Cursor.sees_read`), so it leads on within the buffer: a read that succeeds passes over the bytes
of a field with that value, and one that fails over those that were in order
(`Cursor.cursor_run`). -/
namespace ObjectGraph.Wire

/-- The number that the first four bytes stand for. -/
def declared (bs : Bytes) : Nat := Bytes.toNatLE (bs.take 4)

/-- Bytes of a field that every field of its kind has. -/
def Request.width : Request → Nat
  | .byte | .flag => 1
  | .u32 | .count _ | .bytes _ | .text _ => 4

/-- The greatest count or length that is admitted. -/
def Request.bound? : Request → Option Nat
  | .count max | .bytes max | .text max => some max
  | .byte | .flag | .u32 => none

/-- The greatest length that is admitted where bytes follow it. -/
def Request.payload? : Request → Option Nat
  | .bytes max | .text max => some max
  | .byte | .flag | .u32 | .count _ => none

/-- Why a request is refused before these bytes, and how many of them are passed over. -/
inductive Refuses (bs : Bytes) : Request → Error → (passed : Nat) → Prop
  | short {request : Request} : bs.length < request.width → Refuses bs request .outOfBounds 0
  | flag {b : UInt8} : bs.head? = some b → b ≠ 0 → b ≠ 1 → Refuses bs .flag (.invalidFlag b) 1
  | tooLarge {request : Request} {max : Nat} : request.bound? = some max → 4 ≤ bs.length →
      max < declared bs → Refuses bs request (.lengthTooLarge (declared bs) max) 4
  | cut {request : Request} {max : Nat} : request.payload? = some max → 4 ≤ bs.length →
      declared bs ≤ max → bs.length < 4 + declared bs → Refuses bs request .outOfBounds 4
  | notText {max : Nat} : 4 + declared bs ≤ bs.length → declared bs ≤ max →
      (∀ s, Utf8.ofString s ≠ (bs.drop 4).take (declared bs)) →
      Refuses bs (.text max) .invalidUtf8 (4 + declared bs)

section Read

variable (bs : Bytes)

theorem take_eq (n : Nat) :
    take n bs =
      if n ≤ bs.length then (.ok (bs.take n), bs.drop n) else (.error .outOfBounds, bs) := by
  simp [take]

theorem declared_lt : declared bs < 2 ^ 32 := by
  have hlt := Bytes.toNatLE_lt (bs.take 4)
  have hle : Nat.pow 256 (bs.take 4).length ≤ Nat.pow 256 4 :=
    Nat.pow_le_pow_right (by decide) (List.length_take_le 4 bs)
  exact hlt.trans_le hle

theorem readCount_eq (max : Nat) :
    readCount max bs =
      if bs.length < 4 then (.error .outOfBounds, bs)
      else if max < declared bs then (.error (.lengthTooLarge (declared bs) max), bs.drop 4)
      else (.ok (declared bs), bs.drop 4) := by
  have hnumber : (UInt32.ofNat (declared bs)).toNat = declared bs :=
    UInt32.toNat_ofNat_of_lt' (declared_lt bs)
  unfold readCount readU32
  rw [take_eq]
  by_cases hlen : 4 ≤ bs.length
  · rw [if_pos hlen, if_neg (not_lt.2 hlen)]
    dsimp only
    rw [← declared, hnumber]
  · rw [if_neg hlen, if_pos (not_le.1 hlen)]

theorem readBytes_eq (max : Nat) :
    readBytes max bs =
      if bs.length < 4 then (.error .outOfBounds, bs)
      else if max < declared bs then (.error (.lengthTooLarge (declared bs) max), bs.drop 4)
      else if bs.length < 4 + declared bs then (.error .outOfBounds, bs.drop 4)
      else (.ok ((bs.drop 4).take (declared bs)), bs.drop (4 + declared bs)) := by
  unfold readBytes
  rw [readCount_eq]
  by_cases hlen : bs.length < 4
  · rw [if_pos hlen, if_pos hlen]
  rw [if_neg hlen, if_neg hlen]
  by_cases hmax : max < declared bs
  · rw [if_pos hmax, if_pos hmax]
  rw [if_neg hmax, if_neg hmax]
  dsimp only
  rw [take_eq, List.length_drop, List.drop_drop]
  by_cases hpayload : bs.length < 4 + declared bs
  · rw [if_pos hpayload, if_neg (by omega)]
  · rw [if_neg hpayload, if_pos (by omega)]

end Read

variable {bs : Bytes} {request : Request}

/-- A request is a read of its own, whose value is made a datum. -/
theorem Reader.of_apply {α : Type} (read : Read α) (f : α → Datum) {outcome : Except Error Datum}
    {r : Reader} (h : Reader.apply read f (Reader.mk bs) = (outcome, r)) :
    ∃ own, read bs = (own, r.unread) ∧ own.map f = outcome := by
  unfold Reader.apply at h
  rcases hr : read bs with ⟨own, rest⟩
  rw [hr] at h
  cases h
  exact ⟨own, rfl, rfl⟩

theorem Reader.of_apply_ok {α : Type} (read : Read α) (f : α → Datum) {datum : Datum} {r : Reader}
    (h : Reader.apply read f (Reader.mk bs) = (.ok datum, r)) :
    ∃ x, read bs = (.ok x, r.unread) ∧ f x = datum := by
  obtain ⟨own, hown, hf⟩ := Reader.of_apply read f h
  obtain ⟨x, rfl, hx⟩ := map_eq_ok.1 hf
  exact ⟨x, hown, hx⟩

theorem Reader.of_apply_error {α : Type} (read : Read α) (f : α → Datum) {e : Error} {r : Reader}
    (h : Reader.apply read f (Reader.mk bs) = (.error e, r)) : read bs = (.error e, r.unread) := by
  obtain ⟨own, hown, hf⟩ := Reader.of_apply read f h
  cases own with
  | ok x => cases hf
  | error e' =>
    cases hf
    exact hown

theorem le_of_readCount {max n : Nat} {rest : Bytes} (h : readCount max bs = (.ok n, rest)) :
    n ≤ max := by
  rw [readCount_eq] at h
  split_ifs at h with hlen hmax <;> cases h
  exact not_lt.1 hmax

theorem length_le_of_readBytes {max : Nat} {data rest : Bytes}
    (h : readBytes max bs = (.ok data, rest)) : data.length ≤ max := by
  rw [readBytes_eq] at h
  split_ifs at h with hlen hmax hpayload <;> cases h
  exact (List.length_take_le ..).trans (not_lt.1 hmax)

theorem bytes_of_readText {max : Nat} {outcome : Except Error String} {rest : Bytes}
    (h : readText max bs = (outcome, rest)) :
    ∃ data, readBytes max bs = (data, rest) ∧
      match data with
      | .error e => outcome = .error e
      | .ok data => (∃ s, Utf8.ofString s = data ∧ outcome = .ok s) ∨
          (∀ s, Utf8.ofString s ≠ data) ∧ outcome = .error .invalidUtf8 := by
  unfold readText at h
  rcases hb : readBytes max bs with ⟨e | data, rest'⟩ <;> rw [hb] at h
  · cases h
    exact ⟨_, rfl, rfl⟩
  · dsimp only at h
    rcases ht : Utf8.toText data with fault | s <;> rw [ht] at h <;> cases h
    · refine ⟨_, rfl, .inr ⟨fun s hs => ?_, rfl⟩⟩
      rw [← hs, Utf8.toText_ofString] at ht
      cases ht
    · exact ⟨_, rfl, .inl ⟨s, Utf8.ofString_of_toText ht, rfl⟩⟩

/-- A field that is read is written as the bytes in front of those left. -/
theorem field_of_read {datum : Datum} {r : Reader}
    (h : (Reader.mk bs).read request = (.ok datum, r)) :
    ∃ (item : Item) (passed : Bytes), item.ReadBy request ∧ item.encode = .ok passed ∧
      item.datum = datum ∧ bs = passed ++ r.unread := by
  cases request with
  | byte =>
    obtain ⟨b, hb, rfl⟩ := Reader.of_apply_ok readByte .byte h
    cases bs with
    | nil => cases hb
    | cons b' rest =>
      cases hb
      exact ⟨.byte b, [b], .byte b, rfl, rfl, rfl⟩
  | flag =>
    obtain ⟨flag, hflag, rfl⟩ := Reader.of_apply_ok readFlag .flag h
    exact ⟨.flag flag, _, .flag flag, rfl, rfl, readFlag_ok hflag⟩
  | u32 =>
    obtain ⟨n, hn, rfl⟩ := Reader.of_apply_ok readU32 .u32 h
    exact ⟨.u32 n, _, .u32 n, rfl, rfl, readU32_ok hn⟩
  | count max =>
    obtain ⟨n, hn, rfl⟩ := Reader.of_apply_ok (readCount max) .count h
    obtain ⟨passed, hpassed, hbs⟩ := readCount_ok hn
    exact ⟨.count n, passed, .count (le_of_readCount hn), hpassed, rfl, hbs⟩
  | bytes max =>
    obtain ⟨data, hdata, rfl⟩ := Reader.of_apply_ok (readBytes max) .bytes h
    obtain ⟨passed, hpassed, hbs⟩ := readBytes_ok hdata
    exact ⟨.bytes data, passed, .bytes (length_le_of_readBytes hdata), hpassed, rfl, hbs⟩
  | text max =>
    obtain ⟨s, hs, rfl⟩ := Reader.of_apply_ok (readText max) .text h
    obtain ⟨passed, hpassed, hbs⟩ := readText_ok hs
    obtain ⟨e | data, hdata, hcase⟩ := bytes_of_readText hs
    · cases hcase
    · obtain ⟨s', hs', ⟨⟩⟩ | ⟨-, ⟨⟩⟩ := hcase
      refine ⟨.text s maxCount, passed, .text ?_, hpassed, rfl, hbs⟩
      rw [hs']
      exact length_le_of_readBytes hdata

theorem refuses_of_readBytes {max : Nat} (hp : request.payload? = some max)
    (hb : request.bound? = some max) (hw : request.width = 4) {e : Error} {rest : Bytes}
    (h : readBytes max bs = (.error e, rest)) :
    ∃ n, Refuses bs request e n ∧ n ≤ bs.length ∧ rest = bs.drop n := by
  rw [readBytes_eq] at h
  split_ifs at h with hlen hmax hpayload <;> cases h
  · exact ⟨0, .short (hw ▸ hlen), Nat.zero_le _, rfl⟩
  · exact ⟨4, .tooLarge hb (not_lt.1 hlen) hmax, not_lt.1 hlen, rfl⟩
  · exact ⟨4, .cut hp (not_lt.1 hlen) (not_lt.1 hmax) hpayload, not_lt.1 hlen, rfl⟩

/-- A read that fails has passed over the bytes that were in order. -/
theorem refuses_of_read {e : Error} {r : Reader}
    (h : (Reader.mk bs).read request = (.error e, r)) :
    ∃ n, Refuses bs request e n ∧ n ≤ bs.length ∧ r.unread = bs.drop n := by
  obtain ⟨rest⟩ := r
  cases request with
  | byte =>
    have h := Reader.of_apply_error readByte .byte h
    cases bs with
    | nil =>
      cases h
      exact ⟨0, .short (by decide), le_rfl, rfl⟩
    | cons b bs => cases h
  | flag =>
    have h := Reader.of_apply_error readFlag .flag h
    cases bs with
    | nil =>
      cases h
      exact ⟨0, .short (by decide), le_rfl, rfl⟩
    | cons b bs =>
      simp only [readFlag, readByte] at h
      split_ifs at h with h0 h1 <;> cases h
      exact ⟨1, .flag rfl h0 h1, Nat.le_add_left .., rfl⟩
  | u32 =>
    have h := Reader.of_apply_error readU32 .u32 h
    rw [readU32, take_eq] at h
    split_ifs at h with hlen <;> cases h
    exact ⟨0, .short (not_le.1 hlen), Nat.zero_le _, rfl⟩
  | count max =>
    have h := Reader.of_apply_error (readCount max) .count h
    rw [readCount_eq] at h
    split_ifs at h with hlen hmax <;> cases h
    · exact ⟨0, .short hlen, Nat.zero_le _, rfl⟩
    · exact ⟨4, .tooLarge rfl (not_lt.1 hlen) hmax, not_lt.1 hlen, rfl⟩
  | bytes max =>
    have h := Reader.of_apply_error (readBytes max) .bytes h
    exact refuses_of_readBytes rfl rfl rfl h
  | text max =>
    obtain ⟨data, hdata, hcase⟩ := bytes_of_readText (Reader.of_apply_error (readText max) .text h)
    cases data with
    | error e' =>
      cases hcase
      exact refuses_of_readBytes rfl rfl rfl hdata
    | ok data =>
      obtain ⟨s, -, ⟨⟩⟩ | ⟨hnot, ⟨⟩⟩ := hcase
      rw [readBytes_eq] at hdata
      split_ifs at hdata with hlen hmax hpayload <;> cases hdata
      exact ⟨_, .notText (not_lt.1 hpayload) (not_lt.1 hmax) hnot, not_lt.1 hpayload, rfl⟩

def Read.settle {α : Type} (outcome : Except Error α) : Read α := fun bs => (outcome, bs)

def Read.andThen {α β : Type} (read : Read α) (next : α → Read β) : Read β := fun bs =>
  match read bs with
  | (.error e, rest) => (.error e, rest)
  | (.ok x, rest) => next x rest

theorem readByte_parts :
    readByte = Read.andThen (take 1) fun front => Read.settle (.ok (front.headD 0)) := by
  funext bs
  cases bs <;> simp [readByte, Read.andThen, Read.settle, take]

theorem readFlag_parts :
    readFlag = Read.andThen readByte fun b =>
      if b = 0 then Read.settle (.ok false)
      else if b = 1 then Read.settle (.ok true)
      else Read.settle (.error (.invalidFlag b)) := by
  funext bs
  rcases bs with _ | ⟨b, bs⟩
  · rfl
  · simp only [readFlag, readByte, Read.andThen]
    split_ifs <;> rfl

theorem readU32_parts :
    readU32 = Read.andThen (take 4) fun front =>
      Read.settle (.ok (UInt32.ofNat (Bytes.toNatLE front))) := by
  funext bs
  unfold readU32 Read.andThen
  rcases take 4 bs with ⟨e | front, rest⟩ <;> rfl

theorem readCount_parts (max : Nat) :
    readCount max = Read.andThen readU32 fun n =>
      if max < n.toNat then Read.settle (.error (.lengthTooLarge n.toNat max))
      else Read.settle (.ok n.toNat) := by
  funext bs
  unfold readCount Read.andThen
  rcases readU32 bs with ⟨e | n, rest⟩
  · rfl
  · dsimp only
    split_ifs <;> rfl

theorem readBytes_parts (max : Nat) : readBytes max = Read.andThen (readCount max) take := by
  funext bs
  unfold readBytes Read.andThen
  rcases readCount max bs with ⟨e | n, rest⟩ <;> rfl

theorem readText_parts (max : Nat) :
    readText max = Read.andThen (readBytes max) fun data =>
      match Utf8.toText data with
      | .ok s => Read.settle (.ok s)
      | .error _ => Read.settle (.error .invalidUtf8) := by
  funext bs
  unfold readText Read.andThen
  rcases readBytes max bs with ⟨e | data, rest⟩
  · rfl
  · dsimp only
    cases Utf8.toText data <;> rfl

def Request.ask (request : Request) : Read Datum := fun bs =>
  (((Reader.mk bs).read request).1, ((Reader.mk bs).read request).2.unread)

theorem Reader.apply_parts {α : Type} (read : Read α) (f : α → Datum) :
    (fun bs => ((Reader.apply read f ⟨bs⟩).1, (Reader.apply read f ⟨bs⟩).2.unread)) =
      Read.andThen read fun x => Read.settle (.ok (f x)) := by
  funext bs
  unfold Reader.apply Read.andThen
  rcases read bs with ⟨e | x, rest⟩ <;> rfl

namespace Cursor

variable {α β : Type} {c : Cursor}

/-- A step from the cursor does what the reader does to the bytes unread, and leads on within the
buffer. -/
structure Sees (step : Step α) (read : Read α) (c : Cursor) : Prop where
  outcome : (step c).1 = (read c.unread).1
  unread : (step c).2.unread = (read c.unread).2
  buffer : (step c).2.buffer = c.buffer
  onward : c.offset ≤ (step c).2.offset
  within : (step c).2.offset ≤ c.buffer.length

theorem sees_settle (hc : c.offset ≤ c.buffer.length) (outcome : Except Error α) :
    Sees (settle outcome) (Read.settle outcome) c :=
  ⟨rfl, rfl, rfl, le_rfl, hc⟩

theorem sees_take (hc : c.offset ≤ c.buffer.length) (n : Nat) :
    Sees (take n) (Wire.take n) c := by
  have hread := take_eq c.unread n
  rw [unread, List.length_drop, List.drop_drop] at hread
  by_cases hstop : c.offset + n ≤ c.buffer.length
  · have hstep : take n c = (.ok ((c.buffer.take (c.offset + n)).drop c.offset),
        { c with offset := c.offset + n }) := if_pos hstop
    rw [if_pos (by omega)] at hread
    have hfront : (c.buffer.take (c.offset + n)).drop c.offset =
        (c.buffer.drop c.offset).take n := by
      rw [List.drop_take, Nat.add_sub_cancel_left]
    constructor <;> simp only [hstep, unread, hread, hfront]
    · exact Nat.le_add_right ..
    · exact hstop
  · have hstep : take n c = (.error .outOfBounds, c) := if_neg hstop
    rw [if_neg (by omega)] at hread
    constructor <;> simp only [hstep, unread, hread, le_rfl, hc]

/-- A read in two parts goes on from wherever the first of them has led. -/
theorem Sees.andThen {step : Step α} {read : Read α} {next : α → Step β} {readOn : α → Read β}
    (h : Sees step read c)
    (hnext : ∀ x (d : Cursor), d.offset ≤ d.buffer.length → Sees (next x) (readOn x) d) :
    Sees (Cursor.andThen step next) (Read.andThen read readOn) c := by
  obtain ⟨houtcome, hunread, hbuffer, honward, hwithin⟩ := h
  have hfirst : read c.unread = ((step c).1, (step c).2.unread) :=
    Prod.ext houtcome.symm hunread.symm
  rcases hstep : step c with ⟨e | x, d⟩ <;>
    rw [hstep] at hfirst hbuffer honward hwithin <;> dsimp only at hfirst hbuffer honward hwithin
  · constructor <;>
      simp only [Cursor.andThen, Read.andThen, hstep, hfirst, hbuffer, honward, hwithin]
  · obtain ⟨houtcome, hunread, hbuffer', honward', hwithin'⟩ := hnext x d (hbuffer ▸ hwithin)
    constructor <;> simp only [Cursor.andThen, Read.andThen, hstep, hfirst]
    · exact houtcome
    · exact hunread
    · exact hbuffer'.trans hbuffer
    · exact honward.trans honward'
    · exact hbuffer ▸ hwithin'

section Fields

variable (hc : c.offset ≤ c.buffer.length)
include hc

theorem sees_readByte : Sees readByte Wire.readByte c := by
  rw [readByte_parts]
  exact (sees_take hc 1).andThen fun front d hd => sees_settle hd _

theorem sees_readFlag : Sees readFlag Wire.readFlag c := by
  rw [readFlag_parts]
  refine (sees_readByte hc).andThen fun b d hd => ?_
  split_ifs <;> exact sees_settle hd _

theorem sees_readU32 : Sees readU32 Wire.readU32 c := by
  rw [readU32_parts]
  exact (sees_take hc 4).andThen fun front d hd => sees_settle hd _

theorem sees_readCount (max : Nat) : Sees (readCount max) (Wire.readCount max) c := by
  rw [readCount_parts]
  refine (sees_readU32 hc).andThen fun n d hd => ?_
  split_ifs <;> exact sees_settle hd _

theorem sees_readBytes (max : Nat) : Sees (readBytes max) (Wire.readBytes max) c := by
  rw [readBytes_parts]
  exact (sees_readCount hc max).andThen fun n d hd => sees_take hd n

theorem sees_readText (max : Nat) : Sees (readText max) (Wire.readText max) c := by
  rw [readText_parts]
  refine (sees_readBytes hc max).andThen fun data d hd => ?_
  cases Utf8.toText data <;> exact sees_settle hd _

/-- A cursor reads every field as the reader does. -/
theorem sees_read (request : Request) : Sees (fun c => c.read request) request.ask c := by
  have value {α : Type} {step : Step α} {read : Read α} (h : Sees step read c) (f : α → Datum) :
      Sees (Cursor.andThen step fun x => settle (.ok (f x)))
        (fun bs => ((Reader.apply read f ⟨bs⟩).1, (Reader.apply read f ⟨bs⟩).2.unread)) c := by
    rw [Reader.apply_parts]
    exact h.andThen fun x d hd => sees_settle hd _
  cases request with
  | byte => exact value (sees_readByte hc) Datum.byte
  | flag => exact value (sees_readFlag hc) Datum.flag
  | u32 => exact value (sees_readU32 hc) Datum.u32
  | count max => exact value (sees_readCount hc max) Datum.count
  | bytes max => exact value (sees_readBytes hc max) Datum.bytes
  | text max => exact value (sees_readText hc max) Datum.text

end Fields

def upTo (c next : Cursor) : Bytes := (c.buffer.take next.offset).drop c.offset

theorem upTo_append_drop {c next : Cursor} (h : c.offset ≤ next.offset)
    (hwithin : next.offset ≤ c.buffer.length) :
    c.upTo next ++ c.buffer.drop next.offset = c.unread := by
  have hlen : c.offset ≤ (c.buffer.take next.offset).length := by
    rw [List.length_take_of_le hwithin]
    exact h
  rw [upTo, unread, ← List.drop_append_of_le_length hlen, List.take_append_drop]

/-- Where a cursor has come by reading, from one in its buffer. -/
structure Behind (c next : Cursor) : Prop where
  buffer : next.buffer = c.buffer
  onward : c.offset ≤ next.offset
  within : next.offset ≤ c.buffer.length

theorem behind_read (hc : c.offset ≤ c.buffer.length) (request : Request) :
    Behind c (c.read request).2 :=
  have h := sees_read hc request
  ⟨h.buffer, h.onward, h.within⟩

/-- Reads go on behind those that fail. -/
theorem behind_after (hc : c.offset ≤ c.buffer.length) (requests : List Request) :
    Behind c (c.after requests) := by
  induction requests generalizing c with
  | nil => exact ⟨rfl, le_rfl, hc⟩
  | cons request requests ih =>
    obtain ⟨hbuffer, honward, hwithin⟩ := behind_read hc request
    obtain ⟨hbuffer', honward', hwithin'⟩ := ih (hbuffer ▸ hwithin)
    exact ⟨hbuffer'.trans hbuffer, honward.trans honward', hbuffer ▸ hwithin'⟩

/-- What is read of a field at some place is read there in the whole program. -/
theorem getElem?_readAll (c : Cursor) (earlier : List Request) (request : Request)
    (later : List Request) :
    (c.readAll (earlier ++ request :: later))[earlier.length]? =
      some ((c.after earlier).read request) := by
  induction earlier generalizing c with
  | nil => rfl
  | cons first earlier ih => exact ih (c.read first).2

/-- A step from a cursor in its buffer, granted or refused. -/
theorem read_verdict (hc : c.offset ≤ c.buffer.length) (request : Request) :
    let next := (c.read request).2
    match (c.read request).1 with
    | .ok datum => ∃ item : Item,
        item.ReadBy request ∧ item.encode = .ok (c.upTo next) ∧ item.datum = datum
    | .error e => Refuses c.unread request e (next.offset - c.offset) := by
  intro next
  obtain ⟨houtcome, hunread, hbuffer, honward, hwithin⟩ := sees_read hc request
  have hread : (Reader.mk c.unread).read request = ((c.read request).1, ⟨next.unread⟩) :=
    Prod.ext houtcome.symm (congrArg Reader.mk hunread.symm)
  have hnext : next.unread = c.buffer.drop next.offset := by rw [unread, hbuffer]
  rcases hfirst : (c.read request).1 with e | datum <;> rw [hfirst] at hread
  · obtain ⟨n, hn, hlen, hdrop⟩ := refuses_of_read hread
    rw [unread, List.length_drop] at hlen
    have hpassed : next.offset - c.offset = n := by
      have hlengths := congrArg List.length hdrop
      dsimp only at hlengths
      rw [hnext, unread, List.length_drop, List.length_drop, List.length_drop] at hlengths
      change next.offset ≤ c.buffer.length at hwithin
      omega
    rwa [← hpassed] at hn
  · obtain ⟨item, front, hreadBy, hencode, hdatum, hsplit⟩ := field_of_read hread
    refine ⟨item, hreadBy, ?_, hdatum⟩
    have hfront : c.upTo next = front := by
      have hunread := upTo_append_drop honward hwithin
      rw [hsplit, ← hnext] at hunread
      exact List.append_cancel_right hunread
    rw [hfront, hencode]

/-- A cursor stays in its buffer, also behind reads that have failed, so there are never fewer than
no bytes left, and never more than before. A read that succeeds gives the value of the bytes it has
passed over; one that fails has passed over those that were in order. -/
theorem cursor_run (buffer : Bytes) (earlier : List Request) (request : Request) :
    let before := ({ buffer } : Cursor).after earlier
    let next := (before.read request).2
    before.buffer = buffer ∧ before.offset ≤ buffer.length ∧
    before.remaining + before.offset = buffer.length ∧
    before.offset ≤ next.offset ∧ next.offset ≤ buffer.length ∧ next.remaining ≤ before.remaining ∧
    (match (before.read request).1 with
      | .ok datum => ∃ item : Item,
          item.ReadBy request ∧ item.encode = .ok (before.upTo next) ∧ item.datum = datum
      | .error e => Refuses before.unread request e (next.offset - before.offset)) ∧
    ∀ later, (({ buffer } : Cursor).readAll (earlier ++ request :: later))[earlier.length]? =
      some (before.read request) := by
  intro before next
  obtain ⟨hbuffer, -, hwithin⟩ := behind_after (c := { buffer }) (Nat.zero_le _) earlier
  change before.buffer = buffer at hbuffer
  have hc : before.offset ≤ before.buffer.length := hbuffer.symm ▸ hwithin
  obtain ⟨hbuffer', honward', hwithin'⟩ := behind_read hc request
  have hleft : before.remaining = buffer.length - before.offset := by rw [remaining, hbuffer]
  have hleft' : next.remaining = buffer.length - next.offset := by
    rw [remaining, hbuffer', hbuffer]
  refine ⟨hbuffer, hwithin, ?_, honward', hbuffer ▸ hwithin', ?_, read_verdict hc request,
    getElem?_readAll _ earlier request⟩
  · rw [hleft]
    exact Nat.sub_add_cancel hwithin
  · rw [hleft, hleft']
    exact Nat.sub_le_sub_left honward' _

-- A flag byte that is none, a text that is not UTF-8, and a length with too little behind it.
example :
    (({ buffer := [9, 1, 0, 0, 0, 255, 3, 0, 0, 0, 1] } : Cursor).readAll
      [.flag, .text 8, .bytes 8, .count 8, .byte]).map (fun step => (step.1, step.2.offset)) =
    [(.error (.invalidFlag 9), 1), (.error .invalidUtf8, 6), (.error .outOfBounds, 10),
      (.error .outOfBounds, 10), (.ok (.byte 1), 11)] := by
  decide

end Cursor
end ObjectGraph.Wire
