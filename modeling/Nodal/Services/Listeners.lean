import Mathlib.Data.Finset.Option
import Nodal.Foundation.Latest
import Nodal.Git.Remote
import Nodal.Runtime.Procargs

/-!
# The ports that are listened on, from the kernel's tables

`services/listeners.rs`: Linux writes one row of text for each socket, and macOS one buffer of records of
many lengths, where the port of a socket is in one record and its state in a later one. Both readings answer
exactly the local ports of the sockets that listen. On bytes that are no table at all the walk over the
records still ends, keeps inside the buffer, and answers the port of the last port record before a listening
state record, with no other state record between the two (`tables_exact`).
-/

set_option autoImplicit false

namespace Nodal.Services.Listeners

open Foundation Foundation.Text
open Foundation.Framed (bigEndian ofBigEndian length_bigEndian ofBigEndian_bigEndian)
open Foundation.Latest (Mark taken Answered mem_taken_iff)
open Git.Remote (rsplitOnce rsplitOnce_append)
open Runtime.Procargs (Bytes Endian fromNeBytes)

/-! ### The rows of Linux -/

/-- The `st` column of a socket in the LISTEN state. -/
def LISTEN : Text := "0A".toList

/-- `char::to_digit`, of sixteen digits. -/
def toDigit (c : Char) : Option ℕ :=
  if c.isDigit then some (c.toNat - 48)
  else if 'A'.toNat ≤ c.toNat ∧ c.toNat ≤ 'F'.toNat then some (c.toNat - 55)
  else if 'a'.toNat ≤ c.toNat ∧ c.toNat ≤ 'f'.toNat then some (c.toNat - 87)
  else none

/-- The number that digits spell, after a number already read. -/
def readHex : ℕ → Text → Option ℕ
  | n, [] => some n
  | n, c :: rest => (toDigit c).bind fun digit ↦ readHex (16 * n + digit) rest

/-- `u16::from_str_radix`, of sixteen digits. -/
def fromStrRadix (text : Text) : Option UInt16 :=
  let digits := match text with
    | '+' :: rest => rest
    | _ => text
  if digits = [] then none else ((readHex 0 digits).filter (· < 2 ^ 16)).map UInt16.ofNat

/-- The local port of one row, when that row is a listening socket. -/
def localPort (row : Text) : Option UInt16 := do
  let columns := (words row).drop 1
  let address ← columns[0]?
  let state ← columns[2]?
  if state ≠ LISTEN then none
  else
    let (_, port) ← rsplitOnce ':' address
    fromStrRadix port

/-- The listening ports in the text of one table. -/
def listeningIn (table : Text) : Finset UInt16 := ((lines table).filterMap localPort).toFinset

/-! ### The records of macOS -/

/-- The record of a socket's address and ports. -/
def XSO_INPCB : ℕ := 0x010

/-- The record of a socket's TCP state. -/
def XSO_TCPCB : ℕ := 0x020

/-- The state of a socket that is listening. -/
def TCPS_LISTEN : ℤ := 1

/-- The size of the header that opens the buffer and of the record that closes it. -/
def XINPGEN : ℕ := 24

/-- The boundary the kernel puts every record on. -/
def ALIGN : ℕ := 8

/-- Where the length of a record is. -/
def LENGTH : ℕ := 0

/-- Where the kind of a record is. -/
def KIND : ℕ := 4

/-- Where the local port of an `xinpcb_n` is. -/
def LOCAL_PORT : ℕ := 18

/-- Where the connection state of an `xtcpcb_n` is. -/
def STATE : ℕ := 36

/-- A buffer. No slice is longer than `isize::MAX`. -/
structure Buffer where
  bytes : Bytes
  fits : bytes.length < 2 ^ 63

/-- A part of a buffer. What is read is read through one, and none reaches outside. -/
structure Slice (table : Buffer) where
  start : ℕ
  length : ℕ
  inside : start + length ≤ table.bytes.length

variable {table : Buffer}

/-- The bytes of a part. -/
def Slice.bytes (slice : Slice table) : Bytes := (table.bytes.drop slice.start).take slice.length

/-- The whole of a buffer. -/
def whole (table : Buffer) : Slice table := ⟨0, table.bytes.length, by rw [Nat.zero_add]⟩

/-- `table.get(next..)`. -/
def getFrom (table : Buffer) (next : ℕ) : Option (Slice table) :=
  if h : next ≤ table.bytes.length then some ⟨next, table.bytes.length - next, by omega⟩ else none

/-- So many bytes at an offset, when the record reaches that far. -/
def field (count : ℕ) (record : Slice table) (offset : ℕ) : Option (Slice table) :=
  if h : offset + count ≤ record.length then
    some ⟨record.start + offset, count, by have hinside := record.inside; omega⟩
  else none

/-- `u32::from_ne_bytes`. -/
def u32FromNeBytes (endian : Endian) (bytes : Bytes) : ℕ := ofBigEndian (endian.largestFirst bytes)

/-- `u16::from_be_bytes`. -/
def u16FromBeBytes (bytes : Bytes) : UInt16 := UInt16.ofNat (ofBigEndian bytes)

/-- The `u32` at an offset read as a length. -/
def lengthAt (endian : Endian) (record : Slice table) (offset : ℕ) : Option ℕ :=
  (field 4 record offset).map (u32FromNeBytes endian ·.bytes)

/-- `next_multiple_of`. -/
def rounded (length : ℕ) : ℕ :=
  if length % ALIGN = 0 then length else length + (ALIGN - length % ALIGN)

def USIZE_MAX : ℕ := 2 ^ 64 - 1

def saturatingAdd (a b : ℕ) : ℕ := min (a + b) USIZE_MAX

/-- Where the walk is, the port that waits for a state, and the ports found. -/
structure Walk where
  next : ℕ
  port : Option UInt16
  bound : Finset UInt16

/-- The record at an offset and its length. There is none where the walk breaks off. -/
def recordAt (endian : Endian) (table : Buffer) (next : ℕ) : Option (Slice table × ℕ) := do
  let record ← getFrom table next
  let length ← lengthAt endian record LENGTH
  if length ≤ XINPGEN then none else some (record, length)

/-- One turn of the loop. -/
def step (endian : Endian) (table : Buffer) (walk : Walk) : Option Walk := do
  let (record, length) ← recordAt endian table walk.next
  let next := saturatingAdd walk.next (rounded length)
  let kind := (field 4 record KIND).map (u32FromNeBytes endian ·.bytes)
  if kind = some XSO_INPCB then
    let port := (field 2 record LOCAL_PORT).map (u16FromBeBytes ·.bytes)
    some ⟨next, port, walk.bound⟩
  else if kind = some XSO_TCPCB then
    let state := (field 4 record STATE).map (fromNeBytes endian ·.bytes)
    let bound := if state = some TCPS_LISTEN then walk.bound ∪ walk.port.toFinset else walk.bound
    some ⟨next, none, bound⟩
  else some ⟨next, walk.port, walk.bound⟩

/-- The loop, for so many turns at most. -/
def turns (endian : Endian) (table : Buffer) : ℕ → Walk → Option (Finset UInt16)
  | 0, _ => none
  | count + 1, walk => match step endian table walk with
    | none => some walk.bound
    | some walk => turns endian table count walk

/-- The listening ports in one buffer, with a loop of so many turns at most. -/
def listeningInPcblist (endian : Endian) (table : Buffer) (count : ℕ) : Option (Finset UInt16) :=
  match lengthAt endian (whole table) LENGTH with
  | none => some ∅
  | some header => turns endian table count ⟨rounded header, none, ∅⟩

/-! ### What the walk meets -/

variable {endian : Endian}

/-- What a record does to the port that waits. -/
def mark (endian : Endian) (record : Slice table) : Mark UInt16 :=
  let kind := (field 4 record KIND).map (u32FromNeBytes endian ·.bytes)
  if kind = some XSO_INPCB then .offer ((field 2 record LOCAL_PORT).map (u16FromBeBytes ·.bytes))
  else if kind = some XSO_TCPCB then
    .call ((field 4 record STATE).map (fromNeBytes endian ·.bytes) = some TCPS_LISTEN)
  else .neither

/-- The records from an offset on, each as far after the one before it as that one's length says. -/
inductive Met (endian : Endian) (table : Buffer) : ℕ → List (Slice table) → Prop
  | ended {next : ℕ} (h : recordAt endian table next = none) : Met endian table next []
  | record {next length : ℕ} {record : Slice table} {rest : List (Slice table)}
      (h : recordAt endian table next = some (record, length))
      (hrest : Met endian table (saturatingAdd next (rounded length)) rest) :
      Met endian table next (record :: rest)

/-- What is longer than a header takes up four boundaries or more. -/
theorem rounded_of_long {length : ℕ} (h : XINPGEN < length) : 32 ≤ rounded length := by
  have hheader : XINPGEN = 24 := rfl
  unfold rounded ALIGN
  split_ifs <;> omega

theorem getFrom_eq_some {next : ℕ} {record : Slice table} (h : getFrom table next = some record) :
    record.start = next ∧ next + record.length = table.bytes.length := by
  unfold getFrom at h
  split_ifs at h with hnext
  obtain rfl := Option.some.inj h
  exact ⟨rfl, Nat.add_sub_of_le hnext⟩

theorem field_eq_some {count offset : ℕ} {record part : Slice table}
    (h : field count record offset = some part) :
    offset + count ≤ record.length ∧ part.start = record.start + offset ∧ part.length = count := by
  unfold field at h
  split_ifs at h with hoffset
  obtain rfl := Option.some.inj h
  exact ⟨hoffset, rfl, rfl⟩

theorem recordAt_eq_some {next length : ℕ} {record : Slice table}
    (h : recordAt endian table next = some (record, length)) :
    getFrom table next = some record ∧ lengthAt endian record LENGTH = some length ∧
      XINPGEN < length := by
  simp only [recordAt, Option.bind_eq_bind, Option.bind_eq_some_iff] at h
  obtain ⟨found, hfound, size, hsize, hrecord⟩ := h
  split_ifs at hrecord with hlong
  obtain ⟨rfl, rfl⟩ := Prod.mk.inj (Option.some.inj hrecord)
  exact ⟨hfound, hsize, Nat.lt_of_not_le hlong⟩

/-- A record the walk goes on from begins in the buffer, and the next one is 32 bytes on or more. -/
theorem recordAt_bounds {next length : ℕ} {record : Slice table}
    (h : recordAt endian table next = some (record, length)) :
    next + 4 ≤ table.bytes.length ∧ next + 32 ≤ saturatingAdd next (rounded length) := by
  obtain ⟨hrecord, hlength, hlong⟩ := recordAt_eq_some h
  obtain ⟨-, hend⟩ := getFrom_eq_some hrecord
  obtain ⟨part, hpart, -⟩ := Option.map_eq_some_iff.mp hlength
  have hfour : LENGTH + 4 ≤ record.length := (field_eq_some hpart).1
  have hrounded := rounded_of_long hlong
  have hfits := table.fits
  have hbegin : LENGTH = 0 := rfl
  refine ⟨by omega, le_min (by omega) ?_⟩
  have hmax : USIZE_MAX = 2 ^ 64 - 1 := rfl
  omega

/-- There are records, and they end: each is 32 bytes on or more. -/
theorem exists_met (endian : Endian) (table : Buffer) (next : ℕ) :
    ∃ records, Met endian table next records ∧
      32 * records.length ≤ table.bytes.length + 28 - next := by
  induction hleft : table.bytes.length - next using Nat.strong_induction_on generalizing next with
  | _ left ih =>
    cases hrecord : recordAt endian table next with
    | none => exact ⟨[], .ended hrecord, Nat.zero_le _⟩
    | some found =>
      obtain ⟨record, length⟩ := found
      obtain ⟨hbegins, hnext⟩ := recordAt_bounds hrecord
      obtain ⟨records, hmet, hcount⟩ := ih _ (by omega) (saturatingAdd next (rounded length)) rfl
      refine ⟨record :: records, .record hrecord hmet, ?_⟩
      rw [List.length_cons]
      omega

/-- A turn takes what the record's mark takes. -/
theorem step_eq {walk : Walk} {record : Slice table} {length : ℕ}
    (h : recordAt endian table walk.next = some (record, length)) (marks : List (Mark UInt16)) :
    ∃ walk', step endian table walk = some walk' ∧
      walk'.next = saturatingAdd walk.next (rounded length) ∧
      walk'.bound ∪ (taken walk'.port marks).toFinset =
        walk.bound ∪ (taken walk.port (mark endian record :: marks)).toFinset := by
  simp only [step, h, Option.bind_eq_bind, Option.bind_some, mark]
  split_ifs with hport hstate hlisten
  · exact ⟨_, rfl, rfl, rfl⟩
  · refine ⟨_, rfl, rfl, ?_⟩
    cases hwaits : walk.port <;> simp [taken, hlisten]
  · refine ⟨_, rfl, rfl, ?_⟩
    simp [taken, hlisten]
  · exact ⟨_, rfl, rfl, rfl⟩

/-- The loop takes what the marks of the records take. -/
theorem turns_eq {records : List (Slice table)} {walk : Walk} {count : ℕ}
    (h : Met endian table walk.next records) (hcount : records.length < count) :
    turns endian table count walk =
      some (walk.bound ∪ (taken walk.port (records.map (mark endian))).toFinset) := by
  induction records generalizing walk count with
  | nil =>
    obtain ⟨count, rfl⟩ := Nat.exists_eq_add_of_lt hcount
    cases h with
    | ended h => simp [turns, step, h, taken]
  | cons record rest ih =>
    cases h with
    | @record _ length _ _ h hrest =>
      obtain ⟨walk', hstep, hnext, hbound⟩ := step_eq h (rest.map (mark endian))
      cases count with
      | zero => omega
      | succ count =>
        rw [← hnext] at hrest
        rw [turns, hstep, List.map_cons, ← hbound]
        exact ih hrest (by simpa using hcount)

/-! ### The buffer the kernel writes -/

/-- So many bytes. -/
def BytesOf (count : ℕ) : Type := { bytes : Bytes // bytes.length = count }

/-- What a record holds after its length and its kind, as far as its fields go. -/
inductive Body
  | inpcb (inpp : BytesOf 8) (fport : BytesOf 2) (lport : UInt16) (rest : Bytes)
  | tcpcb (segq : BytesOf 8) (dupacks : BytesOf 4) (timer : BytesOf 16) (state : Int32) (rest : Bytes)
  | other (kind : UInt32) (rest : Bytes) (named : kind.toNat ≠ XSO_INPCB ∧ kind.toNat ≠ XSO_TCPCB)

namespace Body

def kind : Body → ℕ
  | inpcb .. => XSO_INPCB
  | tcpcb .. => XSO_TCPCB
  | other kind _ _ => kind.toNat

/-- The local port, of the record that has one. -/
def port? : Body → Option UInt16
  | inpcb _ _ lport _ => some lport
  | _ => none

/-- The state, of the record that has one. -/
def state? : Body → Option Int32
  | tcpcb _ _ _ state _ => some state
  | _ => none

/-- The fields, those that are numbers of the host in its order. -/
def fields (endian : Endian) : Body → Bytes
  | inpcb inpp fport lport rest => inpp.1 ++ (fport.1 ++ (bigEndian 2 lport.toNat ++ rest))
  | tcpcb segq dupacks timer state rest =>
    segq.1 ++ (dupacks.1 ++ (timer.1 ++
      (endian.largestFirst (bigEndian 4 state.toBitVec.toNat) ++ rest)))
  | other _ rest _ => rest

/-- The length of the record, which is what its first field says. -/
def size : Body → ℕ
  | inpcb _ _ _ rest => 20 + rest.length
  | tcpcb _ _ _ _ rest => 40 + rest.length
  | other _ rest _ => 8 + rest.length

end Body

/-- A record: longer than the closing header, of a length that 32 bits say, and padded to the boundary. -/
structure Record where
  body : Body
  padding : Bytes
  long : XINPGEN < body.size
  counted : body.size < 2 ^ 32
  padded : body.size + padding.length = rounded body.size

/-- A `u32` as the host keeps it. -/
def u32Bytes (endian : Endian) (n : ℕ) : Bytes := endian.largestFirst (bigEndian 4 n)

def Record.bytes (endian : Endian) (record : Record) : Bytes :=
  u32Bytes endian record.body.size ++
    (u32Bytes endian record.body.kind ++ (record.body.fields endian ++ record.padding))

/-- An `xinpgen`, which says its own length first. -/
def xinpgen (endian : Endian) (rest : BytesOf 20) : Bytes := u32Bytes endian XINPGEN ++ rest.1

/-- A buffer as the kernel writes it: a header, records, and a header that closes them. -/
structure PcbList where
  header : BytesOf 20
  records : List Record
  closing : BytesOf 20
  fits : 48 + (records.map (rounded ·.body.size)).sum < 2 ^ 63

namespace PcbList

/-- The bytes of a list. -/
def bytes (endian : Endian) (list : PcbList) : Bytes :=
  xinpgen endian list.header ++
    (list.records.flatMap (Record.bytes endian) ++ xinpgen endian list.closing)

end PcbList

/-- The records of one socket: its port before its state, and any others anywhere. -/
structure Socket where
  port : UInt16
  state : Int32
  before : List Record
  inpcb : Record
  between : List Record
  tcpcb : Record
  after : List Record
  named : inpcb.body.port? = some port
  stated : tcpcb.body.state? = some state
  others : ∀ record ∈ before ++ between ++ after,
    record.body.port? = none ∧ record.body.state? = none

def Socket.records (socket : Socket) : List Record :=
  socket.before ++ socket.inpcb :: (socket.between ++ socket.tcpcb :: socket.after)

/-- Whether the socket is listening. -/
def Socket.listens (socket : Socket) : Bool := socket.state.toInt = TCPS_LISTEN

/-! ### The records are read as they were written -/

variable {front piece back : Bytes}

@[simp] theorem length_u32Bytes (endian : Endian) (n : ℕ) : (u32Bytes endian n).length = 4 := by
  simp [u32Bytes]

theorem length_fields (endian : Endian) (body : Body) : (body.fields endian).length + 8 = body.size := by
  cases body with
  | inpcb inpp fport lport rest =>
    have hinpp := inpp.2
    have hfport := fport.2
    simp only [Body.fields, Body.size, List.length_append, length_bigEndian]
    omega
  | tcpcb segq dupacks timer state rest =>
    have hsegq := segq.2
    have hdupacks := dupacks.2
    have htimer := timer.2
    simp only [Body.fields, Body.size, List.length_append, Endian.length_largestFirst, length_bigEndian]
    omega
  | other kind rest named => exact Nat.add_comm _ _

theorem length_record (endian : Endian) (record : Record) :
    (record.bytes endian).length = rounded record.body.size := by
  have hfields := length_fields endian record.body
  have hpadded := record.padded
  simp only [Record.bytes, List.length_append, length_u32Bytes]
  omega

theorem length_xinpgen (endian : Endian) (rest : BytesOf 20) : (xinpgen endian rest).length = XINPGEN := by
  rw [xinpgen, List.length_append, length_u32Bytes, rest.2]
  rfl

/-- The buffer of a list. -/
def PcbList.buffer (endian : Endian) (list : PcbList) : Buffer where
  bytes := list.bytes endian
  fits := by
    have hfits := list.fits
    have hrecords : (list.records.flatMap (Record.bytes endian)).length =
        (list.records.map (rounded ·.body.size)).sum := by
      simp only [List.length_flatMap, length_record]
    have hheader : XINPGEN = 24 := rfl
    rw [PcbList.bytes, List.length_append, List.length_append, length_xinpgen, length_xinpgen, hrecords]
    omega

theorem u32FromNeBytes_u32Bytes {n : ℕ} (h : n < 2 ^ 32) :
    u32FromNeBytes endian (u32Bytes endian n) = n := by
  rw [u32FromNeBytes, u32Bytes, Endian.largestFirst_largestFirst]
  exact ofBigEndian_bigEndian (by omega)

theorem u16FromBeBytes_bigEndian (port : UInt16) : u16FromBeBytes (bigEndian 2 port.toNat) = port := by
  rw [u16FromBeBytes, ofBigEndian_bigEndian (by have hport := port.toNat_lt; omega), UInt16.ofNat_toNat]

theorem fromNeBytes_state (state : Int32) :
    fromNeBytes endian (endian.largestFirst (bigEndian 4 state.toBitVec.toNat)) = state.toInt := by
  have hlt := state.toBitVec.isLt
  have hint : state.toInt = state.toBitVec.toInt := rfl
  rw [fromNeBytes, Endian.largestFirst_largestFirst, ofBigEndian_bigEndian (by omega), hint,
    BitVec.toInt_eq_toNat_cond]
  split_ifs <;> omega

theorem length_bytes (slice : Slice table) : slice.bytes.length = slice.length := by
  have hinside := slice.inside
  rw [Slice.bytes, List.length_take, List.length_drop]
  omega

/-- A field is read where it was written. -/
theorem field_map {α : Type} {slice : Slice table} {count offset : ℕ} (read : Bytes → α)
    (hbytes : slice.bytes = front ++ (piece ++ back)) (hfront : front.length = offset)
    (hpiece : piece.length = count) : (field count slice offset).map (read ·.bytes) = some (read piece) := by
  have hlength := length_bytes slice
  rw [hbytes, List.length_append, List.length_append] at hlength
  have hinside : offset + count ≤ slice.length := by omega
  have hpart : (table.bytes.drop (slice.start + offset)).take count = piece := by
    have hcut : (slice.bytes.drop offset).take count = piece := by
      rw [hbytes, ← hfront, List.drop_left, ← hpiece, List.take_left]
    rw [Slice.bytes, List.drop_take, List.take_take, List.drop_drop, min_eq_left (by omega)] at hcut
    exact hcut
  rw [field, dif_pos hinside, Option.map_some]
  exact congrArg (some ∘ read) hpart

theorem getFrom_append (h : table.bytes = front ++ back) :
    ∃ slice, getFrom table front.length = some slice ∧ slice.bytes = back := by
  have hle : front.length ≤ table.bytes.length := by
    rw [h, List.length_append]
    exact Nat.le_add_right _ _
  refine ⟨_, dif_pos hle, ?_⟩
  have hrest : table.bytes.length - front.length = back.length := by
    rw [h, List.length_append, Nat.add_sub_cancel_left]
  show (table.bytes.drop front.length).take (table.bytes.length - front.length) = back
  rw [hrest, h, List.drop_left, List.take_length]

/-- What a record does to the port that waits. -/
def Record.mark (record : Record) : Mark UInt16 :=
  match record.body with
  | .inpcb _ _ lport _ => .offer (some lport)
  | .tcpcb _ _ _ state _ => .call (state.toInt = TCPS_LISTEN)
  | .other .. => .neither

section

variable {slice : Slice table} {record : Record}

theorem lengthAt_record (h : slice.bytes = record.bytes endian ++ back) :
    lengthAt endian slice LENGTH = some record.body.size := by
  rw [Record.bytes, List.append_assoc] at h
  have hfield := @field_map table [] _ _ _ slice 4 LENGTH (u32FromNeBytes endian) h rfl
    (length_u32Bytes _ _)
  rw [lengthAt, hfield, u32FromNeBytes_u32Bytes record.counted]

theorem kind_lt (body : Body) : body.kind < 2 ^ 32 := by
  cases body with
  | inpcb => exact Nat.lt_of_lt_of_le (by decide : XSO_INPCB < 2 ^ 6) (by decide)
  | tcpcb => exact Nat.lt_of_lt_of_le (by decide : XSO_TCPCB < 2 ^ 6) (by decide)
  | other kind => exact kind.toNat_lt

/-- A record is read as what it is. -/
theorem mark_record (h : slice.bytes = record.bytes endian ++ back) : mark endian slice = record.mark := by
  have hbytes : slice.bytes = u32Bytes endian record.body.size ++ (u32Bytes endian record.body.kind ++
      (record.body.fields endian ++ (record.padding ++ back))) := by
    rw [h, Record.bytes]
    simp only [List.append_assoc]
  have hkind : (field 4 slice KIND).map (u32FromNeBytes endian ·.bytes) = some record.body.kind := by
    have hfield := @field_map table _ _ _ _ slice 4 KIND (u32FromNeBytes endian) hbytes
      (length_u32Bytes _ _) (length_u32Bytes _ _)
    rw [hfield, u32FromNeBytes_u32Bytes (kind_lt _)]
  simp only [mark, hkind, Record.mark, Option.some_inj]
  cases hbody : record.body with
  | inpcb inpp fport lport rest =>
    rw [hbody] at hbytes
    have hcut : slice.bytes = (u32Bytes endian (Body.inpcb inpp fport lport rest).size ++
        (u32Bytes endian (Body.inpcb inpp fport lport rest).kind ++ (inpp.1 ++ fport.1))) ++
        (bigEndian 2 lport.toNat ++ (rest ++ (record.padding ++ back))) := by
      rw [hbytes, Body.fields]
      simp only [List.append_assoc]
    have hport := @field_map table _ _ _ _ slice 2 LOCAL_PORT u16FromBeBytes hcut
      (by simp [inpp.2, fport.2, LOCAL_PORT]) (length_bigEndian _ _)
    rw [hport, u16FromBeBytes_bigEndian]
    exact if_pos rfl
  | tcpcb segq dupacks timer state rest =>
    rw [hbody] at hbytes
    have hcut : slice.bytes = (u32Bytes endian (Body.tcpcb segq dupacks timer state rest).size ++
        (u32Bytes endian (Body.tcpcb segq dupacks timer state rest).kind ++
          (segq.1 ++ (dupacks.1 ++ timer.1)))) ++
        (endian.largestFirst (bigEndian 4 state.toBitVec.toNat) ++
          (rest ++ (record.padding ++ back))) := by
      rw [hbytes, Body.fields]
      simp only [List.append_assoc]
    have hstate := @field_map table _ _ _ _ slice 4 STATE (fromNeBytes endian) hcut
      (by simp [segq.2, dupacks.2, timer.2, STATE]) (by simp)
    rw [hstate, fromNeBytes_state]
    simp [Body.kind, XSO_INPCB, XSO_TCPCB]
  | other kind rest named => simp [Body.kind, named.1, named.2]

/-- A record begins where the bytes before it end. -/
theorem recordAt_record (h : table.bytes = front ++ (record.bytes endian ++ back)) :
    ∃ slice, recordAt endian table front.length = some (slice, record.body.size) ∧
      mark endian slice = record.mark := by
  obtain ⟨slice, hslice, hbytes⟩ := getFrom_append h
  refine ⟨slice, ?_, mark_record hbytes⟩
  simp only [recordAt, hslice, lengthAt_record hbytes, Option.bind_eq_bind, Option.bind_some]
  exact if_neg (Nat.not_le.mpr record.long)

/-- The closing header ends the walk. -/
theorem recordAt_closing {rest : BytesOf 20} (h : table.bytes = front ++ xinpgen endian rest) :
    recordAt endian table front.length = none := by
  obtain ⟨slice, hslice, hbytes⟩ := getFrom_append h
  have hfield := @field_map table [] _ _ _ slice 4 LENGTH (u32FromNeBytes endian) hbytes rfl
    (length_u32Bytes _ _)
  rw [u32FromNeBytes_u32Bytes (by decide)] at hfield
  simp only [recordAt, hslice, lengthAt, hfield, Option.bind_eq_bind, Option.bind_some]
  exact if_pos le_rfl

end

/-- The walk meets the records that were written, and no others. -/
theorem met_records {records : List Record} {rest : BytesOf 20}
    (h : table.bytes = front ++ (records.flatMap (Record.bytes endian) ++ xinpgen endian rest)) :
    ∃ slices, Met endian table front.length slices ∧
      slices.map (mark endian) = records.map Record.mark := by
  induction records generalizing front with
  | nil => exact ⟨[], .ended (recordAt_closing h), rfl⟩
  | cons record records ih =>
    rw [List.flatMap_cons, List.append_assoc] at h
    obtain ⟨slice, hrecord, hmark⟩ := recordAt_record h
    rw [← List.append_assoc] at h
    have hnext : saturatingAdd front.length (rounded record.body.size) =
        (front ++ record.bytes endian).length := by
      have hfits := table.fits
      rw [h, List.length_append] at hfits
      have hmax : USIZE_MAX = 2 ^ 64 - 1 := rfl
      rw [List.length_append, length_record] at hfits ⊢
      exact min_eq_left (by omega)
    obtain ⟨slices, hmet, hmarks⟩ := ih h
    rw [← hnext] at hmet
    exact ⟨slice :: slices, .record hrecord hmet, by rw [List.map_cons, List.map_cons, hmark, hmarks]⟩

/-- A list is read as the ports its records' marks take. -/
theorem listeningInPcblist_buffer (list : PcbList) {count : ℕ} (hcount : list.records.length < count) :
    listeningInPcblist endian (list.buffer endian) count =
      some (taken none (list.records.map Record.mark)).toFinset := by
  have hbytes : (list.buffer endian).bytes = xinpgen endian list.header ++
      (list.records.flatMap (Record.bytes endian) ++ xinpgen endian list.closing) := rfl
  have hwhole : (whole (list.buffer endian)).bytes = u32Bytes endian XINPGEN ++
      (list.header.1 ++ (list.records.flatMap (Record.bytes endian) ++ xinpgen endian list.closing)) := by
    show ((list.buffer endian).bytes.drop 0).take _ = _
    rw [List.drop_zero, whole, List.take_length, hbytes, xinpgen, List.append_assoc]
  have hheader : lengthAt endian (whole (list.buffer endian)) LENGTH = some XINPGEN := by
    have hfield := @field_map _ [] _ _ _ (whole (list.buffer endian)) 4 LENGTH (u32FromNeBytes endian)
      hwhole rfl (length_u32Bytes _ _)
    rw [lengthAt, hfield, u32FromNeBytes_u32Bytes (by decide)]
  obtain ⟨slices, hmet, hmarks⟩ := met_records hbytes
  rw [length_xinpgen] at hmet
  have hlength : slices.length < count := by
    have hsame := congrArg List.length hmarks
    rw [List.length_map, List.length_map] at hsame
    rwa [hsame]
  have hturns := @turns_eq (list.buffer endian) endian slices ⟨rounded XINPGEN, none, ∅⟩ count hmet hlength
  rw [listeningInPcblist, hheader]
  rw [hmarks, Finset.empty_union] at hturns
  exact hturns

/-! ### Sockets -/

theorem mark_of_other {record : Record} (h : record.body.port? = none ∧ record.body.state? = none) :
    record.mark = .neither := by
  unfold Record.mark
  cases hbody : record.body with
  | inpcb => rw [hbody] at h; cases h.1
  | tcpcb => rw [hbody] at h; cases h.2
  | other => rfl

theorem mark_of_port {record : Record} {port : UInt16} (h : record.body.port? = some port) :
    record.mark = .offer (some port) := by
  unfold Record.mark
  cases hbody : record.body with
  | inpcb => rw [hbody] at h; exact congrArg Mark.offer h
  | tcpcb => rw [hbody] at h; cases h
  | other => rw [hbody] at h; cases h

theorem mark_of_state {record : Record} {state : Int32} (h : record.body.state? = some state) :
    record.mark = .call (state.toInt = TCPS_LISTEN) := by
  unfold Record.mark
  cases hbody : record.body with
  | inpcb => rw [hbody] at h; cases h
  | tcpcb => rw [hbody] at h; rw [Option.some.inj h]
  | other => rw [hbody] at h; cases h

/-- The records of a socket take its port where it listens, whatever waited before them. -/
theorem taken_socket (socket : Socket) (standing : Option UInt16) (rest : List (Mark UInt16)) :
    taken standing (socket.records.map Record.mark ++ rest) =
      (if socket.listens then [socket.port] else []) ++ taken none rest := by
  have hneither (records : List Record)
      (h : ∀ record ∈ records, record ∈ socket.before ++ socket.between ++ socket.after) :
      ∀ mark ∈ records.map Record.mark, mark = .neither := by
    rw [List.forall_mem_map]
    exact fun record hrecord ↦ mark_of_other (socket.others record (h record hrecord))
  have hbefore := hneither socket.before (by simp +contextual)
  have hbetween := hneither socket.between (by simp +contextual)
  have hafter := hneither socket.after (by simp +contextual)
  simp only [Socket.records, List.map_append, List.map_cons, List.append_assoc, List.cons_append]
  rw [Latest.taken_append hbefore, mark_of_port socket.named, taken, Latest.taken_append hbetween,
    mark_of_state socket.stated, taken, Latest.taken_append hafter]
  simp [Socket.listens]

theorem mem_taken_sockets {sockets : List Socket} {port : UInt16} :
    port ∈ taken none ((sockets.flatMap Socket.records).map Record.mark) ↔
      ∃ socket ∈ sockets, socket.listens ∧ socket.port = port := by
  induction sockets with
  | nil => simp [taken]
  | cons socket sockets ih =>
    rw [List.flatMap_cons, List.map_append, taken_socket, List.mem_append, ih, List.exists_mem_cons_iff]
    refine or_congr ?_ Iff.rfl
    split_ifs with hlistens
    · simp [hlistens, eq_comm]
    · simp [hlistens]

/-! ### The table the Linux kernel writes -/

/-- A digit of sixteen, as the kernel writes it. -/
def upperDigit (d : ℕ) : Char := Char.ofNat (if d < 10 then 48 + d else 55 + d)

/-- A number in so many digits of sixteen. -/
def hexText : ℕ → ℕ → Text
  | 0, _ => []
  | width + 1, n => hexText width (n / 16) ++ [upperDigit (n % 16)]

def TCP_LISTEN : UInt8 := 10

/-- One socket of a table. The addresses are one word each. -/
structure Row where
  sl : ℕ
  address : Text
  port : UInt16
  remote : Text
  state : UInt8
  rest : Text
  address_word : ∀ c ∈ address, isWhitespace c = false
  remote_word : remote ≠ [] ∧ ∀ c ∈ remote, isWhitespace c = false
  rest_line : '\n' ∉ rest ∧ rest.getLast? ≠ some '\r'

def Row.text (row : Row) : Text :=
  List.replicate (4 - (decimal row.sl).length) ' ' ++
    ((decimal row.sl ++ [':']) ++ ' ' :: ((row.address ++ ':' :: hexText 4 row.port.toNat) ++
      ' ' :: (row.remote ++ ' ' :: (hexText 2 row.state.toNat ++ ' ' :: row.rest))))

/-- The line over the columns. -/
def HEADER : Text :=
  "  sl  local_address rem_address   st tx_queue rx_queue tr tm->when retrnsmt   uid  timeout inode".toList

/-- The text of a table. -/
def procTable (rows : List Row) : Text := (HEADER :: rows.map Row.text).flatMap (· ++ ['\n'])

theorem upperDigit_spec : ∀ d < 16, toDigit (upperDigit d) = some d ∧
    isWhitespace (upperDigit d) = false ∧ upperDigit d ≠ ':' ∧ upperDigit d ≠ '+' := by decide

theorem mem_hexText {c : Char} {width n : ℕ} (h : c ∈ hexText width n) : ∃ d < 16, c = upperDigit d := by
  induction width generalizing n with
  | zero => cases h
  | succ width ih =>
    rw [hexText, List.mem_append, List.mem_singleton] at h
    exact h.elim ih fun hlast ↦ ⟨n % 16, Nat.mod_lt _ (by decide), hlast⟩

theorem isWhitespace_hexText {c : Char} {width n : ℕ} (h : c ∈ hexText width n) :
    isWhitespace c = false := by
  obtain ⟨d, hd, rfl⟩ := mem_hexText h
  exact (upperDigit_spec d hd).2.1

theorem readHex_append (n : ℕ) (text more : Text) :
    readHex n (text ++ more) = (readHex n text).bind (readHex · more) := by
  induction text generalizing n with
  | nil => rfl
  | cons c text ih =>
    rw [List.cons_append, readHex, readHex]
    cases toDigit c with
    | none => rfl
    | some digit => exact ih _

theorem readHex_hexText {width n : ℕ} (h : n < 16 ^ width) : readHex 0 (hexText width n) = some n := by
  induction width generalizing n with
  | zero =>
    rw [pow_zero] at h
    exact congrArg some (Nat.lt_one_iff.mp h).symm
  | succ width ih =>
    rw [pow_succ] at h
    have hlast := (upperDigit_spec (n % 16) (Nat.mod_lt _ (by decide))).1
    rw [hexText, readHex_append, ih (Nat.div_lt_of_lt_mul (by omega)), Option.bind_some, readHex, hlast,
      Option.bind_some, readHex, Nat.div_add_mod]

theorem fromStrRadix_hexText (port : UInt16) : fromStrRadix (hexText 4 port.toNat) = some port := by
  have hlt := port.toNat_lt
  have hread : readHex 0 (hexText 4 port.toNat) = some port.toNat := readHex_hexText (by omega)
  have hne : hexText 4 port.toNat ≠ [] := by simp [hexText]
  have hsign : ∀ rest, hexText 4 port.toNat ≠ '+' :: rest := by
    intro rest h
    obtain ⟨d, hd, hplus⟩ := mem_hexText (h ▸ List.mem_cons_self (a := '+'))
    exact (upperDigit_spec d hd).2.2.2 hplus.symm
  unfold fromStrRadix
  split
  · next rest heq => exact absurd heq (hsign rest)
  · simp only [if_neg hne, hread, Option.filter_some, decide_eq_true hlt, if_true, Option.map_some,
      UInt16.ofNat_toNat]

theorem words_replicate (count : ℕ) (text : Text) :
    words (List.replicate count ' ' ++ text) = words text := by
  induction count with
  | zero => rfl
  | succ count ih =>
    have hspace := @runs_append isWhitespace ' ' (by decide) [] (List.replicate count ' ' ++ text)
    rw [List.replicate_succ, List.cons_append]
    exact hspace.trans ih

theorem words_word {word rest : Text} (hne : word ≠ []) (h : ∀ c ∈ word, isWhitespace c = false) :
    words (word ++ ' ' :: rest) = word :: words rest := by
  rw [words, runs_append (by decide), runs_of_unbroken hne h]
  rfl

namespace Row

variable (row : Row)

/-- The columns of a row, as far as they are read. -/
theorem words_text : words row.text = (decimal row.sl ++ [':']) ::
    (row.address ++ ':' :: hexText 4 row.port.toNat) :: row.remote :: hexText 2 row.state.toNat ::
      words row.rest := by
  have hsl : ∀ c ∈ decimal row.sl ++ [':'], isWhitespace c = false := by
    intro c hc
    rw [List.mem_append, List.mem_singleton] at hc
    rcases hc with hdigit | rfl
    · have hascii := isDigit_iff.mp (isDigit_of_mem_decimal hdigit)
      rw [isWhitespace, decide_eq_false_iff_not]
      omega
    · decide
  have haddress : ∀ c ∈ row.address ++ ':' :: hexText 4 row.port.toNat, isWhitespace c = false := by
    intro c hc
    rw [List.mem_append, List.mem_cons] at hc
    rcases hc with haddress | rfl | hport
    · exact row.address_word c haddress
    · decide
    · exact isWhitespace_hexText hport
  rw [text, words_replicate, words_word (by simp) hsl, words_word (by simp) haddress,
    words_word row.remote_word.1 row.remote_word.2,
    words_word (by simp [hexText]) fun c ↦ isWhitespace_hexText]

theorem localPort_text :
    localPort row.text = if row.state = TCP_LISTEN then some row.port else none := by
  have hlisten : hexText 2 row.state.toNat = LISTEN ↔ row.state = TCP_LISTEN := by
    have hten : LISTEN = hexText 2 TCP_LISTEN.toNat := by decide
    refine ⟨fun h ↦ ?_, fun h ↦ by rw [h, hten]⟩
    have hlt := row.state.toNat_lt
    have hread := @readHex_hexText 2 row.state.toNat (by omega)
    rw [h, hten, readHex_hexText (by decide), Option.some_inj] at hread
    exact UInt8.toNat_inj.mp hread.symm
  have hcolon : ':' ∉ hexText 4 row.port.toNat := by
    intro h
    obtain ⟨d, hd, heq⟩ := mem_hexText h
    exact (upperDigit_spec d hd).2.2.1 heq.symm
  simp only [localPort, words_text, List.drop_succ_cons, List.drop_zero, List.getElem?_cons_zero,
    List.getElem?_cons_succ, Option.bind_eq_bind, Option.bind_some, ne_eq, hlisten,
    rsplitOnce_append hcolon, fromStrRadix_hexText, ite_not]

theorem newline_notMem_text : '\n' ∉ row.text := by
  have hword {text : Text} (h : ∀ c ∈ text, isWhitespace c = false) : '\n' ∉ text := fun hmem ↦
    absurd (h _ hmem) (by decide)
  have hsl : '\n' ∉ decimal row.sl := fun h ↦ absurd (isDigit_of_mem_decimal h) (by decide)
  have hport := hword fun c ↦ @isWhitespace_hexText c 4 row.port.toNat
  have hstate := hword fun c ↦ @isWhitespace_hexText c 2 row.state.toNat
  simp [text, hsl, hport, hstate, hword row.address_word, hword row.remote_word.2, row.rest_line.1]

theorem chomp_text : chomp row.text = row.text := by
  have hcut : ∃ front, row.text = front ++ ' ' :: row.rest :=
    ⟨List.replicate (4 - (decimal row.sl).length) ' ' ++ ((decimal row.sl ++ [':']) ++
      ' ' :: ((row.address ++ ':' :: hexText 4 row.port.toNat) ++
        ' ' :: (row.remote ++ ' ' :: hexText 2 row.state.toNat))), by simp [text]⟩
  obtain ⟨front, hfront⟩ := hcut
  refine chomp_eq_self ?_
  rw [hfront, List.getLast?_append_of_ne_nil _ (List.cons_ne_nil _ _)]
  cases hrest : row.rest with
  | nil => decide
  | cons c rest =>
    rw [List.getLast?_cons_cons, ← hrest]
    exact row.rest_line.2

end Row

/-- The reading of a table answers the ports of its sockets that listen. -/
theorem mem_listeningIn_iff {rows : List Row} {port : UInt16} : port ∈ listeningIn (procTable rows) ↔
    ∃ row ∈ rows, row.state = TCP_LISTEN ∧ row.port = port := by
  have hheader : localPort HEADER = none := by decide +kernel
  have hlines : lines (procTable rows) = HEADER :: rows.map Row.text := by
    rw [procTable, lines_flatMap, List.map_cons, List.map_map]
    · refine congrArg₂ _ (by decide +kernel) (List.map_congr_left fun row _ ↦ row.chomp_text)
    · rw [List.forall_mem_cons, List.forall_mem_map]
      exact ⟨by decide +kernel, fun row _ ↦ row.newline_notMem_text⟩
  rw [listeningIn, hlines, List.filterMap_cons, hheader, List.mem_toFinset, List.filterMap_map,
    List.mem_filterMap]
  simp only [Function.comp_apply, Row.localPort_text, Option.ite_none_right_eq_some, Option.some_inj]

/-! ### Both tables -/

/-- The records of a buffer. There are none where the length of the header is cut short. -/
def Walked (endian : Endian) (table : Buffer) (records : List (Slice table)) : Prop :=
  match lengthAt endian (whole table) LENGTH with
  | none => records = []
  | some header => Met endian table (rounded header) records

/-- On any bytes the walk ends, and answers what the marks of the records it meets take. -/
theorem listeningInPcblist_walked (endian : Endian) (table : Buffer) :
    ∃ records, Walked endian table records ∧ ∀ count, table.bytes.length / 32 + 2 ≤ count →
      listeningInPcblist endian table count =
        some (taken none (records.map (mark endian))).toFinset := by
  cases hheader : lengthAt endian (whole table) LENGTH with
  | none =>
    refine ⟨[], by simp only [Walked, hheader], fun count _ ↦ ?_⟩
    simp [listeningInPcblist, hheader, taken]
  | some header =>
    obtain ⟨records, hmet, hlength⟩ := exists_met endian table (rounded header)
    refine ⟨records, by simpa only [Walked, hheader] using hmet, fun count hcount ↦ ?_⟩
    have hturns := @turns_eq table endian records ⟨rounded header, none, ∅⟩ count hmet (by omega)
    rw [Finset.empty_union] at hturns
    simp only [listeningInPcblist, hheader, hturns]

/-- The tables are walked exactly. Of the records the kernel writes the walk answers the ports of the sockets
that listen, and of records in any order those that are the last before a listening state. On any bytes it
ends, and answers the ports that are the last before a listening state in the records it meets; what it reads
of them it reads through slices of the buffer. Of rows the reading answers the ports of those that listen. -/
theorem tables_exact (endian : Endian) :
    (∀ (list : PcbList) (sockets : List Socket) (count : ℕ),
      list.records = sockets.flatMap Socket.records → list.records.length < count →
      ∃ bound, listeningInPcblist endian (list.buffer endian) count = some bound ∧
        ∀ port, port ∈ bound ↔ ∃ socket ∈ sockets, socket.listens ∧ socket.port = port) ∧
    (∀ (list : PcbList) (count : ℕ), list.records.length < count →
      ∃ bound, listeningInPcblist endian (list.buffer endian) count = some bound ∧
        ∀ port, port ∈ bound ↔ Answered port (list.records.map Record.mark)) ∧
    (∀ table : Buffer, ∃ bound records, Walked endian table records ∧
      (∀ count, table.bytes.length / 32 + 2 ≤ count →
        listeningInPcblist endian table count = some bound) ∧
      ∀ port, port ∈ bound ↔ Answered port (records.map (mark endian))) ∧
    ∀ (rows : List Row) (port : UInt16), port ∈ listeningIn (procTable rows) ↔
      ∃ row ∈ rows, row.state = TCP_LISTEN ∧ row.port = port := by
  refine ⟨fun list sockets count hrecords hcount ↦ ?_, fun list count hcount ↦ ?_, fun table ↦ ?_,
    fun rows port ↦ mem_listeningIn_iff⟩
  · refine ⟨_, listeningInPcblist_buffer list hcount, fun port ↦ ?_⟩
    rw [List.mem_toFinset, hrecords, mem_taken_sockets]
  · refine ⟨_, listeningInPcblist_buffer list hcount, fun port ↦ ?_⟩
    rw [List.mem_toFinset, mem_taken_iff]
    simp
  · obtain ⟨records, hwalked, hanswers⟩ := listeningInPcblist_walked endian table
    refine ⟨_, records, hwalked, hanswers, fun port ↦ ?_⟩
    rw [List.mem_toFinset, mem_taken_iff]
    simp

private def zeros (count : ℕ) : BytesOf count := ⟨List.replicate count 0, List.length_replicate⟩

private def webSocket : Socket where
  port := 8080
  state := 1
  before := []
  inpcb := ⟨.inpcb (zeros 8) (zeros 2) 8080 (List.replicate 12 0), [], by decide, by decide, by decide⟩
  between := []
  tcpcb := ⟨.tcpcb (zeros 8) (zeros 4) (zeros 16) 1 [], [], by decide, by decide, by decide⟩
  after := []
  named := rfl
  stated := rfl
  others := by decide

private def webList : PcbList := ⟨zeros 20, webSocket.records, zeros 20, by decide⟩

/-- A host where one socket listens. -/
theorem tables_exact_web : ∃ bound, listeningInPcblist .little (webList.buffer .little) 3 = some bound ∧
    ∀ port, port ∈ bound ↔ ∃ socket ∈ [webSocket], socket.listens ∧ socket.port = port :=
  (tables_exact .little).1 webList [webSocket] 3 (List.append_nil _).symm (by decide)

end Nodal.Services.Listeners
