import MyDrive.Library.Except
import MyDrive.Backup.Control
import MyDrive.Backup.Theorems.Noninterference

-- Which messages get through the pipe.

namespace MyDrive.Backup.Control

open Bytes Fragments

variable {J : Json} {sender receiver : Bool} {v : J.Value} {frame tail : List UInt8} {stream : List (List UInt8)}
  {littleEndian : Bool} {bytes : List UInt8} {n : Nat}

-- The length in front of a frame.
section

def header (n : Nat) : List UInt8 :=
  toLe 4 n

theorem length_header : (header n).length = 4 :=
  length_toLe

theorem written_header : (if littleEndian then getBytes littleEndian n else (getBytes littleEndian n).reverse) = header n := by
  cases littleEndian
  case false => simp [getBytes, header]
  case true  => simp [getBytes, header]

theorem read_header (h : n < 2147483648) :
    toInt32 littleEndian (if littleEndian then header n else (header n).reverse) = n := by
  have value : fromLe (header n) = n := fromLe_toLe (by omega)
  cases littleEndian
  case false => simp [toInt32, value, h]
  case true  => simp [toInt32, value, h]

theorem writeAsync_eq_some_iff : writeAsync J sender v = some frame ↔
    (J.text v).length ≤ maxArray ∧ frame = header (J.text v).length ++ J.text v := by
  unfold writeAsync
  dsimp only
  rw [written_header]
  split
  case isTrue h  => simp [Nat.not_le_of_lt h]
  case isFalse h => simp [Nat.le_of_not_lt h, eq_comm]

end

theorem readFully_eq {a b : List UInt8} (hf : Flowing stream) (h : stream.flatten = a ++ b) :
    ∃ rest, readFully a.length stream = .ok (a, rest) ∧ rest.flatten = b ∧ Flowing rest := by
  obtain ⟨rest, read, left, flowing⟩ := readExact_eq hf h
  exact ⟨rest, by rw [readFully, read], left, flowing⟩

theorem readFully_short (hf : Flowing stream) (h : stream.flatten.length < n) : readFully n stream = .error .closed := by
  rw [readFully, readExact_short hf h]

-- A frame that the reader takes, with whatever is behind it.
structure Transported (J : Json) (sender receiver : Bool) (v : J.Value) : Prop where
  written : (writeAsync J sender v).isSome
  read    : ∀ frame, writeAsync J sender v = some frame → ∀ tail stream, Flowing stream → stream.flatten = frame ++ tail →
    ∃ rest, readAsync J receiver stream = .ok (v, rest) ∧ rest.flatten = tail

-- A stream that ends before the end of a frame is an error.
def CutReported (J : Json) (sender receiver : Bool) (v : J.Value) : Prop :=
  ∀ frame, writeAsync J sender v = some frame → ∀ stream, Flowing stream → stream.flatten <+: frame →
    stream.flatten ≠ frame → ∃ e, readAsync J receiver stream = .error e

-- What the reader does once it has the length.
theorem readAsync_header (hl : (J.text v).length ≤ maxArray) (hf : Flowing stream)
    (h : stream.flatten = header (J.text v).length ++ tail) : ∃ rest, rest.flatten = tail ∧ Flowing rest ∧
    readAsync J receiver stream = if maxBytes < (J.text v).length then .error .tooLarge
      else readFully (J.text v).length rest >>= parseDocument J := by
  obtain ⟨rest, read, left, flowing⟩ := readFully_eq hf h
  have nonempty : (J.text v).length ≠ 0 := by
    intro hn
    have := J.parse_text v
    rw [List.length_eq_zero_iff.mp hn, J.parse_nil] at this
    cases this
  have value : toInt32 receiver (if receiver then header (J.text v).length else (header (J.text v).length).reverse) =
      (J.text v).length :=
    read_header (by rw [maxArray] at hl; omega)
  refine ⟨rest, left, flowing, ?_⟩
  rw [length_header] at read
  unfold readAsync
  rw [read, Except.ok_bind]
  simp only [value, Int.toNat_natCast]
  by_cases large : maxBytes < (J.text v).length
  case pos => simp [large, Except.throw_bind]
  case neg => simp [large, nonempty]

theorem transported_iff : Transported J sender receiver v ↔ (J.text v).length ≤ maxBytes := by
  constructor
  case mp =>
    intro h
    by_contra large
    obtain ⟨frame, written⟩ := Option.isSome_iff_exists.mp h.written
    have ⟨short, content⟩ := writeAsync_eq_some_iff.mp written
    have flowing : Flowing [frame] := by
      have : frame ≠ [] := by
        intro he
        have := congrArg List.length (content.symm.trans he)
        simp [length_header] at this
      simpa [Flowing] using this.symm
    obtain ⟨rest, read, _⟩ := h.read frame written [] [frame] flowing (by simp)
    obtain ⟨_, _, _, outcome⟩ := @readAsync_header J receiver v (J.text v) [frame] short flowing (by simp [content])
    rw [if_pos (Nat.lt_of_not_le large), read] at outcome
    cases outcome
  case mpr =>
    intro small
    have short : (J.text v).length ≤ maxArray := Nat.le_trans small (by decide)
    constructor
    case written =>
      rw [writeAsync_eq_some_iff.mpr ⟨short, rfl⟩]
      rfl
    case read =>
      intro frame written tail stream flowing content
      have ⟨_, split⟩ := writeAsync_eq_some_iff.mp written
      rw [split, List.append_assoc] at content
      obtain ⟨behind, left, flows, outcome⟩ := @readAsync_header J receiver v _ stream short flowing content
      obtain ⟨rest, read, done, _⟩ := readFully_eq flows left
      refine ⟨rest, ?_, done⟩
      rw [outcome, if_neg (Nat.not_lt_of_le small), read, Except.ok_bind, parseDocument, J.parse_text]

theorem cutReported (J : Json) (sender receiver : Bool) (v : J.Value) : CutReported J sender receiver v := by
  intro frame written stream flowing inside cut
  obtain ⟨short, rfl⟩ := writeAsync_eq_some_iff.mp written
  obtain ⟨missing, whole⟩ := inside
  have lengths := congrArg List.length whole
  rw [List.length_append, List.length_append, length_header] at lengths
  have lost : 0 < missing.length := by
    refine List.length_pos_iff.mpr ?_
    rintro rfl
    exact cut (by simpa using whole)
  by_cases early : stream.flatten.length < 4
  case pos => exact ⟨.closed, by rw [readAsync, readFully_short flowing early]; rfl⟩
  case neg =>
    have front : header (J.text v).length <+: stream.flatten :=
      List.prefix_of_prefix_length_le ⟨J.text v, rfl⟩ ⟨missing, whole⟩ (by rw [length_header]; omega)
    obtain ⟨part, content⟩ := front
    obtain ⟨behind, left, flows, outcome⟩ := @readAsync_header J receiver v part stream short flowing content.symm
    rw [outcome]
    by_cases large : maxBytes < (J.text v).length
    case pos => exact ⟨.tooLarge, if_pos large⟩
    case neg =>
      have few : behind.flatten.length < (J.text v).length := by
        have := congrArg List.length content
        rw [List.length_append, length_header] at this
        rw [left]
        omega
      exact ⟨.closed, by rw [if_neg large, readFully_short flows few]; rfl⟩

-- A request to the service and its response.
structure PipeLaw (J : Json) (C : Redactor.Culture) (engine : Engine J) (client server : Bool) (request : J.Value) : Prop where
  asked     : Transported J client server request
  answered  : Transported J server client (handle J C engine request)
  askedCut  : CutReported J client server request
  answerCut : CutReported J server client (handle J C engine request)

theorem pipeLaw_iff (J : Json) (C : Redactor.Culture) (engine : Engine J) (client server : Bool) (request : J.Value) :
    PipeLaw J C engine client server request ↔
      (J.text request).length ≤ maxBytes ∧ (J.text (handle J C engine request)).length ≤ maxBytes :=
  ⟨fun h => ⟨transported_iff.mp h.asked, transported_iff.mp h.answered⟩,
    fun h => ⟨transported_iff.mpr h.left, transported_iff.mpr h.right, cutReported J client server request,
      cutReported J server client _⟩⟩

-- Texts of ASCII characters that need no escape, as JSON. A value is its text.
def plainText (t : Text) : List UInt8 :=
  t.map fun c => UInt8.ofNat c.toNat

def plainString (t : Text) : List UInt8 :=
  34 :: plainText t ++ [34]

def plainMember (name : String) (value : List UInt8) : List UInt8 :=
  plainString name.toList ++ 58 :: value

def plainObject (members : List (List UInt8)) : List UInt8 :=
  123 :: List.intercalate [44] members ++ [125]

def exportRequest : List UInt8 :=
  plainObject [plainMember "method" (plainString "logs.export".toList)]

def plain : Json where
  Value              := { bytes : List UInt8 // bytes ≠ [] }
  text v             := v.val
  parse bytes        := if h : bytes ≠ [] then some ⟨bytes, h⟩ else none
  object fields      := ⟨plainObject (fields.map fun f => plainMember f.1 f.2.val), List.cons_ne_nil _ _⟩
  string t           := ⟨plainString t, List.cons_ne_nil _ _⟩
  bool b             := if b then ⟨plainText "true".toList, by decide⟩ else ⟨plainText "false".toList, by decide⟩
  property v name    := .ok (if v.val = exportRequest ∧ name = "method"
    then some ⟨plainString "logs.export".toList, List.cons_ne_nil _ _⟩ else none)
  getString v        := .ok (some (v.val.tail.dropLast.map fun b => Char.ofNat b.toNat))
  isString v         := v.val.head? = some 34
  isTrue v           := v.val = plainText "true".toList
  missing name       := ("No property " ++ name).toList
  parse_text v       := dif_pos v.property
  parse_nil          := rfl

-- An engine whose log is `log`.
def logging (log : Text) : Engine plain
  | .exportLogs => .ok (plain.string log)
  | _           => .error (.other [])

theorem handle_logging (C : Redactor.Culture) (log : Text) : handle plain C (logging log) ⟨exportRequest, List.cons_ne_nil _ _⟩ =
    plain.ok (plain.object [("text", plain.string log)]) := by
  have method : plain.lookUp ⟨exportRequest, List.cons_ne_nil _ _⟩ "method" =
      .ok (some ⟨plainString "logs.export".toList, List.cons_ne_nil _ _⟩) := rfl
  have name : plain.readString ⟨plainString "logs.export".toList, List.cons_ne_nil _ _⟩ =
      .ok (some "logs.export".toList) := rfl
  have answer : dispatch plain (logging log) ⟨exportRequest, List.cons_ne_nil _ _⟩ =
      .ok (plain.object [("text", plain.string log)]) := by
    unfold dispatch
    rw [method, Except.ok_bind]
    simp only [name, Except.ok_bind, Option.map_some, String.ofList_toList]
    rfl
  unfold handle
  rw [answer]

theorem length_logging (C : Redactor.Culture) (log : Text) :
    log.length < (plain.text (handle plain C (logging log) ⟨exportRequest, List.cons_ne_nil _ _⟩)).length := by
  rw [handle_logging]
  simp [plain, Json.ok, plainObject, plainMember, plainString, plainText, List.intercalate]
  omega

-- The log has as many characters as the reader takes bytes.
theorem not_pipeLaw : ¬ ∀ (J : Json) (C : Redactor.Culture) (engine : Engine J) (client server : Bool) (request : J.Value),
    PipeLaw J C engine client server request := by
  intro law
  obtain ⟨log, length⟩ : ∃ log : Text, log.length = maxBytes := ⟨List.replicate maxBytes 'x', List.length_replicate⟩
  have short := transported_iff.mp (law plain Redactor.ascii (logging log) true true ⟨exportRequest, List.cons_ne_nil _ _⟩).answered
  have := length_logging Redactor.ascii log
  omega

end MyDrive.Backup.Control
