import Mathlib.Data.List.TakeWhile
import MyDrive.Storage.Mount

-- What is read of a table of mounts that the kernel has printed.

namespace MyDrive.Storage

namespace Mount

variable {checks : Bool} {text path field : Text} {c : Char} {b : UInt8} {bytes : List UInt8} {m : Mount} {ms : List Mount}
  {fs : List Text} {w : Word}

-- The escapes of a path, and how they are read.
section

def isEscaped (c : Char) : Bool :=
  c = ' ' || c = '\t' || c = '\n' || c = '\\'

-- The blanks that a path is printed with.
def isBare (c : Char) : Bool :=
  isWhitespace c && !isEscaped c

theorem escape_plain (h : ¬isEscaped c) : escape c = [c] := by
  unfold escape
  split <;> simp_all [isEscaped]

theorem escape_escaped (h : isEscaped c) : c = ' ' ∨ c = '\t' ∨ c = '\n' ∨ c = '\\' := by
  simpa [isEscaped, or_assoc] using h

theorem mem_escape (h : isEscaped c) {d : Char} (hd : d ∈ escape c) : ¬isWhitespace d ∧ d ≠ '-' := by
  obtain rfl | rfl | rfl | rfl := escape_escaped h
  all_goals
    simp only [escape, List.mem_cons, List.not_mem_nil, or_false] at hd
    obtain rfl | rfl | rfl | rfl := hd <;> decide

theorem decodeOctal_cons (h : b ≠ 0x5c) : decodeOctal checks (b :: bytes) = (decodeOctal checks bytes).map (b :: ·) := by
  rw [decodeOctal]
  intro _ _ _ _ he
  cases he
  contradiction

theorem decodeOctal_append {front : List UInt8} (h : 0x5c ∉ front) :
    decodeOctal checks (front ++ bytes) = (decodeOctal checks bytes).map (front ++ ·) := by
  induction front
  case nil => simp
  case cons b front hi =>
    have head : b ≠ 0x5c := fun hb => h (hb ▸ List.mem_cons_self)
    rw [List.cons_append, decodeOctal_cons head, hi fun hf => h (List.mem_cons_of_mem b hf), Option.map_map]
    rfl

-- The bytes of a character beyond ASCII are not below 128.
theorem not_mem_utf8EncodeChar (h : c ≠ '\\') : 0x5c ∉ String.utf8EncodeChar c := by
  by_cases ascii : c.toNat < 128
  case pos =>
    rw [Percent.encode_ascii ascii, List.mem_singleton]
    intro he
    have value : c.toNat = 92 := by
      have : (UInt8.ofNat c.toNat).toNat = 92 := he ▸ rfl
      rw [UInt8.toNat_ofNat'] at this
      omega
    exact h (Char.toNat_inj.mp value)
  case neg =>
    have large : ¬c.val.toNat ≤ 127 := fun hc => ascii (Nat.lt_succ_of_le hc)
    have apart {n : Nat} (hl : 128 ≤ n) (hg : n < 256) : (0x5c : UInt8) ≠ .ofNat n := by
      intro he
      have : (92 : Nat) = (UInt8.ofNat n).toNat := he ▸ rfl
      rw [UInt8.toNat_ofNat'] at this
      omega
    unfold String.utf8EncodeChar
    dsimp only
    rw [if_neg large]
    split_ifs
    all_goals simp only [List.mem_cons, List.not_mem_nil, or_false, not_or]
    · exact ⟨apart (by omega) (by omega), apart (by omega) (by omega)⟩
    · exact ⟨apart (by omega) (by omega), apart (by omega) (by omega), apart (by omega) (by omega)⟩
    · exact ⟨apart (by omega) (by omega), apart (by omega) (by omega), apart (by omega) (by omega),
        apart (by omega) (by omega)⟩

theorem decodeOctal_escape : decodeOctal checks (Percent.utf8 (escape c) ++ bytes) =
    (decodeOctal checks bytes).map (String.utf8EncodeChar c ++ ·) := by
  by_cases h : isEscaped c
  case pos =>
    obtain rfl | rfl | rfl | rfl := escape_escaped h
    all_goals cases checks <;> rfl
  case neg =>
    have plain : c ≠ '\\' := by
      rintro rfl
      exact h rfl
    rw [escape_plain h, Percent.utf8, List.flatMap_cons, List.flatMap_nil, List.append_nil,
      decodeOctal_append (not_mem_utf8EncodeChar plain)]

theorem decodeOctal_mangle : decodeOctal checks (Percent.utf8 (mangle path)) = some (Percent.utf8 path) := by
  induction path
  case nil => rfl
  case cons c path hi =>
    have split : Percent.utf8 (mangle (c :: path)) = Percent.utf8 (escape c) ++ Percent.utf8 (mangle path) := by
      simp [Percent.utf8, mangle]
    rw [split, decodeOctal_escape, hi]
    rfl

theorem decodeMountField_mangle : decodeMountField checks (mangle path) = some path := by
  rw [decodeMountField, decodeOctal_mangle]
  simp [fromUtf8Lossy, Percent.ofUtf8_utf8]

end

-- The escapes that do not fit into a byte.
section

def HighEscape (bytes : List UInt8) : Prop :=
  ∃ front a b c back, bytes = front ++ 0x5c :: a :: b :: c :: back ∧ (isOctal a && isOctal b && isOctal c) ∧ 52 ≤ a

theorem highEscape_cons : HighEscape (b :: bytes) ↔
    (∃ x y z back, b :: bytes = 0x5c :: x :: y :: z :: back ∧ (isOctal x && isOctal y && isOctal z) ∧ 52 ≤ x) ∨
    HighEscape bytes := by
  constructor
  case mp =>
    intro ⟨front, x, y, z, back, split, octal, high⟩
    cases front
    case nil => exact .inl ⟨x, y, z, back, split, octal, high⟩
    case cons d front =>
      cases split
      exact .inr ⟨front, x, y, z, back, rfl, octal, high⟩
  case mpr =>
    intro h
    cases h
    case inl h =>
      obtain ⟨x, y, z, back, split, octal, high⟩ := h
      exact ⟨[], x, y, z, back, split, octal, high⟩
    case inr h =>
      obtain ⟨front, x, y, z, back, rfl, octal, high⟩ := h
      exact ⟨b :: front, x, y, z, back, rfl, octal, high⟩

theorem ne_of_isOctal (h : isOctal b) : b ≠ 0x5c := by
  rintro rfl
  cases h

theorem octal_high {x y z : UInt8} (h : isOctal x && isOctal y && isOctal z) : 256 ≤ octal x y z ↔ 52 ≤ x := by
  simp [isOctal, UInt8.le_iff_toNat_le] at h
  simp [octal, UInt8.le_iff_toNat_le]
  omega

theorem highEscape_skip (h : b ≠ 0x5c) : HighEscape (b :: bytes) ↔ HighEscape bytes := by
  rw [highEscape_cons]
  refine ⟨fun hc => hc.resolve_left ?_, .inr⟩
  rintro ⟨x, y, z, back, split, _⟩
  cases split
  exact h rfl

theorem decodeOctal_isSome_iff : (decodeOctal true bytes).isSome ↔ ¬HighEscape bytes := by
  induction bytes using decodeOctal.induct
  case case1 =>
    have : ¬HighEscape [] := by
      rintro ⟨front, x, y, z, back, split, _⟩
      cases front <;> cases split
    simp [decodeOctal, this]
  case case2 x y z bytes octal hi =>
    have digits := octal
    simp only [Bool.and_eq_true] at digits
    have rest : HighEscape (x :: y :: z :: bytes) ↔ HighEscape bytes := by
      rw [highEscape_skip (ne_of_isOctal digits.left.left), highEscape_skip (ne_of_isOctal digits.left.right),
        highEscape_skip (ne_of_isOctal digits.right)]
    have here : HighEscape (0x5c :: x :: y :: z :: bytes) ↔ 52 ≤ x ∨ HighEscape bytes := by
      rw [highEscape_cons, rest]
      refine or_congr_left ⟨?_, fun h => ⟨x, y, z, bytes, rfl, octal, h⟩⟩
      rintro ⟨_, _, _, _, split, _, high⟩
      cases split
      exact high
    rw [decodeOctal, if_pos octal, here, ← octal_high octal]
    by_cases high : 256 ≤ Mount.octal x y z
    case pos => simp [octalByte, high]
    case neg => simp [octalByte, high, hi]
  case case3 x y z bytes octal hi =>
    have rest : HighEscape (0x5c :: x :: y :: z :: bytes) ↔ HighEscape (x :: y :: z :: bytes) := by
      rw [highEscape_cons]
      refine ⟨fun hc => hc.resolve_left ?_, .inr⟩
      rintro ⟨_, _, _, _, split, digits, _⟩
      cases split
      exact octal digits
    rw [decodeOctal, if_neg octal, Option.isSome_map, hi, rest]
  case case4 b bytes short hi =>
    have rest : HighEscape (b :: bytes) ↔ HighEscape bytes := by
      rw [highEscape_cons]
      refine ⟨fun hc => hc.resolve_left ?_, .inr⟩
      rintro ⟨x, y, z, back, split, _⟩
      cases split
      exact short x y z back rfl rfl
    rw [decodeOctal, Option.isSome_map, hi, rest]
    exact short

end

-- The fields of a printed line.
section

theorem mangle_black (h : ∀ c ∈ path, ¬isEscaped c) : mangle path = path := by
  induction path
  case nil => rfl
  case cons c path hi =>
    rw [mangle, List.flatMap_cons, escape_plain (h c List.mem_cons_self)]
    exact congrArg _ (hi fun d hd => h d (List.mem_cons_of_mem c hd))

theorem mangle_word (w : Word) : mangle w.text = w.text := by
  refine mangle_black fun c hc he => ?_
  obtain rfl | rfl | rfl | rfl := escape_escaped he
  case inr.inr.inr => exact (w.black _ hc).right rfl
  all_goals exact (w.black _ hc).left rfl

theorem words_mangle : Split.words isWhitespace (mangle path) = (Split.words isBare path).map mangle := by
  have cut : (mangle path).splitOnP isWhitespace = (path.splitOnP isBare).map mangle := by
    apply Split.splitOnP_flatMap
    case hb =>
      intro c hc
      simp only [isBare, Bool.and_eq_true, Bool.not_eq_true'] at hc
      exact ⟨c, escape_plain (by simp [hc.right]), hc.left⟩
    case hp =>
      intro c hc d hd
      by_cases he : isEscaped c
      case pos => exact (mem_escape he hd).left
      case neg =>
        rw [escape_plain he, List.mem_singleton] at hd
        subst hd
        simpa [isBare, he] using hc
  have empty (t : Text) : (mangle t).isEmpty = t.isEmpty := by
    cases t
    case nil => rfl
    case cons c t =>
      have : escape c ≠ [] := by
        unfold escape
        split <;> simp
      simp [mangle, this]
  rw [Split.words, Split.words, cut, List.filter_map]
  simp only [Function.comp_def, empty]

theorem mangle_injective : Function.Injective mangle := by
  intro s t h
  have read := @decodeMountField_mangle true s
  rw [h, decodeMountField_mangle] at read
  exact (Option.some.inj read).symm

theorem mangle_eq_dash : mangle path = dash ↔ path = dash :=
  ⟨fun h => mangle_injective h, by rintro rfl; rfl⟩

-- The separator is found behind the fields, or at a field that is a dash.
theorem once_fields {source : Text} (h : ∀ f ∈ fs, ' ' ∉ f) : ∃ behind,
    Split.once separator (fs.flatMap (' ' :: ·) ++ separator ++ source) =
      some ((fs.takeWhile (· ≠ dash)).flatMap (' ' :: ·), behind) := by
  induction fs
  case nil =>
    exact ⟨source, Split.once_here (by decide)⟩
  case cons f fs hi =>
    have ⟨rest, starts⟩ : ∃ rest, fs.flatMap (' ' :: ·) ++ separator ++ source = ' ' :: rest := by
      cases fs <;> exact ⟨_, rfl⟩
    have text : (f :: fs).flatMap (' ' :: ·) ++ separator ++ source =
        ' ' :: (f ++ (fs.flatMap (' ' :: ·) ++ separator ++ source)) := by
      simp
    by_cases hd : f = dash
    case pos =>
      have found : ' ' :: (f ++ (fs.flatMap (' ' :: ·) ++ separator ++ source)) = separator ++ rest := by
        rw [starts, hd]
        rfl
      rw [text, found]
      exact ⟨rest, by simpa [hd] using Split.once_here (by decide)⟩
    case neg =>
      obtain ⟨behind, hi⟩ := hi fun g hg => h g (List.mem_cons_of_mem f hg)
      have space : ' ' ∉ f := h f List.mem_cons_self
      have other : ¬separator.isPrefixOf (' ' :: (f ++ (fs.flatMap (' ' :: ·) ++ separator ++ source))) := by
        rw [starts]
        intro hp
        simp only [separator, List.isPrefixOf, Bool.and_eq_true] at hp
        cases f
        case nil => cases hp.right
        case cons c f =>
          simp only [List.cons_append, List.isPrefixOf, Bool.and_eq_true, beq_iff_eq] at hp
          cases f
          case nil => exact hd (hp.right.left ▸ rfl)
          case cons d f =>
            simp only [List.cons_append, List.isPrefixOf, Bool.and_eq_true, beq_iff_eq] at hp
            exact space (hp.right.right.left ▸ List.mem_cons_of_mem c List.mem_cons_self)
      refine ⟨behind, ?_⟩
      rw [text, Split.once, if_neg other]
      rw [show separator = ' ' :: ['-', ' '] from rfl, Split.once_skip space,
        ← show separator = ' ' :: ['-', ' '] from rfl, hi]
      simp [hd]

end

-- What is read of a printed line.
section

-- The texts behind the device, and what the blanks that the kernel prints and a lone dash leave of them.
def texts (m : Mount) : List Text :=
  m.root :: m.mountPoint :: m.options.text :: m.optional.map (·.text)

def pieces (m : Mount) : List Text :=
  (m.texts.takeWhile (· ≠ dash)).flatMap (Split.words isBare)

theorem fields_eq : m.fields = m.parent.text :: m.device.text :: m.texts.map mangle := by
  have optional : (m.optional.map (·.text)).map mangle = m.optional.map (·.text) := by
    rw [List.map_map]
    exact List.map_congr_left fun w _ => mangle_word w
  simp only [fields, texts, List.map_cons, mangle_word, optional]

-- A blank that is escaped is not printed.
theorem not_mem_mangle (hw : isWhitespace c) (he : isEscaped c) : c ∉ mangle path := by
  intro h
  obtain ⟨d, _, hd⟩ := List.mem_flatMap.mp h
  by_cases escaped : isEscaped d
  case pos => exact (mem_escape escaped hd).left hw
  case neg =>
    rw [escape_plain escaped, List.mem_singleton] at hd
    exact escaped (hd ▸ he)

theorem not_mem_word (hw : isWhitespace c) : c ∉ w.text :=
  fun h => (w.black c h).left hw

theorem not_mem_fields (hw : isWhitespace c) (he : isEscaped c) : ∀ f ∈ m.fields, c ∉ f := by
  intro f hf
  rw [fields_eq, List.mem_cons, List.mem_cons, List.mem_map] at hf
  obtain rfl | rfl | ⟨t, _, rfl⟩ := hf
  case inl     => exact not_mem_word hw
  case inr.inl => exact not_mem_word hw
  case inr.inr => exact not_mem_mangle hw he

theorem words_word (w : Word) : Split.words isWhitespace w.text = [w.text] :=
  Split.words_of_black w.ne_nil fun c hc => (w.black c hc).left

theorem endLine_print : ∃ source, Split.endLine '\r' m.print = m.id.text ++ m.fields.flatMap (' ' :: ·) ++ separator ++ source := by
  unfold print
  cases hs : m.source
  case nil =>
    refine ⟨[], ?_⟩
    rw [List.append_nil, Split.endLine_append (by decide)]
    simp [Split.endLine, separator]
  case cons c source =>
    exact ⟨_, Split.endLine_append (List.cons_ne_nil c source)⟩

theorem words_print : Split.words isWhitespace (m.id.text ++ (m.fields.takeWhile (· ≠ dash)).flatMap (' ' :: ·)) =
    m.id.text :: m.parent.text :: m.device.text :: m.pieces.map mangle := by
  have cut : m.fields.takeWhile (· ≠ dash) =
      m.parent.text :: m.device.text :: (m.texts.takeWhile (· ≠ dash)).map mangle := by
    have same (t : Text) : (mangle t ≠ dash) = (t ≠ dash) := by rw [ne_eq, mangle_eq_dash]
    rw [fields_eq, List.takeWhile_cons_of_pos (by simp [m.parent.not_dash]),
      List.takeWhile_cons_of_pos (by simp [m.device.not_dash]), List.takeWhile_map]
    simp only [Function.comp_def, same]
  have pieces : ((m.texts.takeWhile (· ≠ dash)).map mangle).flatMap (Split.words isWhitespace) = m.pieces.map mangle := by
    rw [List.flatMap_map, Mount.pieces, List.map_flatMap]
    simp only [words_mangle]
  rw [Split.words_join rfl, cut, words_word, List.flatMap_cons, List.flatMap_cons, words_word, words_word, pieces]
  rfl

theorem parseLine_print : parseLine checks (Split.endLine '\r' m.print) =
    some (m.pieces[1]?.map fun path => ⟨m.device.text, path⟩) := by
  obtain ⟨source, line⟩ := @endLine_print m
  obtain ⟨behind, found⟩ := @once_fields m.fields source (not_mem_fields rfl rfl)
  have once : Split.once separator (Split.endLine '\r' m.print) =
      some (m.id.text ++ (m.fields.takeWhile (· ≠ dash)).flatMap (' ' :: ·), behind) := by
    rw [line, List.append_assoc, List.append_assoc, ← List.append_assoc (m.fields.flatMap _),
      show separator = ' ' :: ['-', ' '] from rfl, Split.once_skip (not_mem_word rfl),
      ← show separator = ' ' :: ['-', ' '] from rfl, found]
    rfl
  simp only [parseLine, once, words_print]
  cases hp : m.pieces[1]?
  case none => simp [hp]
  case some path => simp [hp, decodeMountField_mangle]

-- The entry that is read of a line, whether it is right or not.
def read (m : Mount) : Option MountEntry :=
  m.pieces[1]?.map fun path => ⟨m.device.text, path⟩

theorem no_newline : '\n' ∉ m.print := by
  intro h
  simp only [print, List.mem_append, List.mem_flatMap, List.mem_cons] at h
  obtain ((h | ⟨f, hf, h | h⟩) | h) | h := h
  case inl.inl.inl     => exact not_mem_word rfl h
  case inl.inl.inr.inl => cases h
  case inl.inl.inr.inr => exact not_mem_fields rfl rfl f hf h
  case inl.inr         => exact absurd h (by decide)
  case inr             => exact m.line h

theorem parseLines_print :
    parseLines checks (ms.map fun m => Split.endLine '\r' m.print) = some (ms.filterMap read) := by
  induction ms
  case nil => rfl
  case cons m ms hi =>
    rw [List.map_cons, parseLines, parseLine_print, Option.bind_some, hi, Option.map_some]
    cases hr : m.read
    case none       => rw [List.filterMap_cons_none hr, ← read, hr]; rfl
    case some entry => rw [List.filterMap_cons_some hr, ← read, hr]; rfl

theorem parseMountinfo_printAll : parseMountinfo checks (printAll ms) = some (ms.filterMap read) := by
  have lines : Split.lines '\r' '\n' (printAll ms) = ms.map fun m => Split.endLine '\r' m.print := by
    rw [printAll, Split.lines_join (by simpa using fun m _ => no_newline), List.map_map]
    rfl
  rw [parseMountinfo, lines, parseLines_print]

theorem filterMap_eq_map_iff {α β : Type} {f : α → Option β} {g : α → β} {as : List α} :
    as.filterMap f = as.map g ↔ ∀ a ∈ as, f a = some (g a) := by
  constructor
  case mp =>
    intro h
    induction as
    case nil => simp
    case cons a as hi =>
      cases ha : f a
      case none =>
        rw [List.filterMap_cons_none ha] at h
        have shorter := List.length_filterMap_le f as
        rw [h, List.length_map, List.length_cons] at shorter
        omega
      case some b =>
        rw [List.filterMap_cons_some ha, List.map_cons, List.cons.injEq] at h
        simpa [ha, h.left] using hi h.right
  case mpr =>
    intro h
    induction as
    case nil => rfl
    case cons a as hi =>
      rw [List.filterMap_cons_some (h a List.mem_cons_self), hi fun b hb => h b (List.mem_cons_of_mem a hb),
        List.map_cons]

-- The second text that is left behind the device is the mount point.
def Legible (m : Mount) : Prop :=
  m.pieces[1]? = some m.mountPoint

theorem read_eq_iff : m.read = some m.entry ↔ m.Legible := by
  rw [read, Legible, entry]
  cases m.pieces[1]? <;> simp

theorem parseMountinfo_iff : parseMountinfo checks (printAll ms) = some (ms.map entry) ↔ ∀ m ∈ ms, m.Legible := by
  rw [parseMountinfo_printAll, Option.some_inj, filterMap_eq_map_iff]
  simp only [read_eq_iff]

-- Paths that are neither empty nor a dash, without blanks beyond those that are escaped, are read as they are.
theorem legible_of_plain (hr : m.root ≠ [] ∧ m.root ≠ dash ∧ ∀ c ∈ m.root, ¬isBare c)
    (hm : m.mountPoint ≠ [] ∧ m.mountPoint ≠ dash ∧ ∀ c ∈ m.mountPoint, ¬isBare c) : m.Legible := by
  have cut : ∃ others, m.texts.takeWhile (· ≠ dash) = m.root :: m.mountPoint :: others := by
    rw [texts, List.takeWhile_cons_of_pos (by simpa using hr.right.left),
      List.takeWhile_cons_of_pos (by simpa using hm.right.left)]
    exact ⟨_, rfl⟩
  obtain ⟨others, cut⟩ := cut
  rw [Legible, pieces, cut, List.flatMap_cons, List.flatMap_cons, Split.words_of_black hr.left hr.right.right,
    Split.words_of_black hm.left hm.right.right]
  rfl

theorem decodeMountField_isSome_iff : (decodeMountField true field).isSome ↔ ¬HighEscape (Percent.utf8 field) := by
  rw [decodeMountField, Option.isSome_map, decodeOctal_isSome_iff]

structure MountinfoLaw (checks : Bool) (ms : List Mount) (field : Text) : Prop where
  inverse : parseMountinfo checks (printAll ms) = some (ms.map entry)
  fits    : (decodeMountField true field).isSome

theorem mountinfoLaw_iff (checks : Bool) (ms : List Mount) (field : Text) :
    MountinfoLaw checks ms field ↔ (∀ m ∈ ms, m.Legible) ∧ ¬HighEscape (Percent.utf8 field) :=
  ⟨fun h => ⟨parseMountinfo_iff.mp h.inverse, decodeMountField_isSome_iff.mp h.fits⟩,
    fun h => ⟨parseMountinfo_iff.mpr h.left, decodeMountField_isSome_iff.mpr h.right⟩⟩

def kernelWord (text : Text) (h : text ≠ [] ∧ text ≠ dash ∧ text.all fun c => !isWhitespace c && c ≠ '\\') : Word where
  text     := text
  ne_nil   := h.left
  black    := by simpa using h.right.right
  not_dash := h.right.left

def mountAt (device : Word) (mountPoint : Text) : Mount where
  id         := kernelWord ['3', '6'] (by decide)
  parent     := kernelWord ['2', '5'] (by decide)
  device     := device
  root       := ['/']
  mountPoint := mountPoint
  options    := kernelWord ['r', 'w'] (by decide)
  optional   := []
  source     := ['e', 'x', 't', '4']
  line       := by decide

def sdb : Word :=
  kernelWord ['8', ':', '1'] (by decide)

def sdc : Word :=
  kernelWord ['8', ':', '2'] (by decide)

-- The mount point has a no-break space, which the kernel prints as it is.
def unbroken : Mount :=
  mountAt sdb ['/', 'a', Char.ofNat 0xa0, 'b']

def octal400 : Text :=
  ['\\', '4', '0', '0']

theorem not_mountinfoLaw : ¬MountinfoLaw false [unbroken] [] ∧ ¬MountinfoLaw false [] octal400 := by
  constructor
  case left =>
    intro h
    have legible : unbroken.Legible := parseMountinfo_iff.mp h.inverse unbroken List.mem_cons_self
    exact absurd legible (show unbroken.pieces[1]? ≠ some unbroken.mountPoint by decide +kernel)
  case right => exact fun h => absurd h.fits (by decide +kernel)

end

-- The mount in force.
section

variable {expected : Text} {device : Option Text}

def isAt (path : Text) (m : Mount) : Bool :=
  samePath m.mountPoint path

-- A later mount hides an earlier one.
def topmost (ms : List Mount) (path : Text) : Option Mount :=
  ms.reverse.find? (isAt path)

-- The mount that is looked at.
def firstRead (ms : List Mount) (path : Text) : Option Mount :=
  ms.find? fun m => m.read.any (samePath ·.mountPoint path)

def HasDevice (device : Option Text) (found : Option Mount) : Prop :=
  ∃ m, found = some m ∧ device = some m.device.text

instance {found : Option Mount} : Decidable (HasDevice device found) :=
  match found with
  | none   => isFalse (by rintro ⟨m, h, _⟩; cases h)
  | some m => decidable_of_iff (device = some m.device.text) (by simp [HasDevice])

theorem find?_filterMap_read : (ms.filterMap read).find? (fun entry => samePath entry.mountPoint expected) =
    (firstRead ms expected).bind read := by
  induction ms
  case nil => rfl
  case cons m ms hi =>
    cases hr : m.read
    case none => rw [List.filterMap_cons_none hr, hi]; simp [firstRead, hr]
    case some entry =>
      rw [List.filterMap_cons_some hr]
      by_cases same : samePath entry.mountPoint expected
      case pos => simp [firstRead, hr, same]
      case neg =>
        rw [List.find?_cons_of_neg (by simpa using same), hi]
        simp [firstRead, hr, same]

theorem device_of_read {entry : MountEntry} (h : m.read = some entry) : entry.device = m.device.text := by
  obtain ⟨path, _, rfl⟩ := Option.map_eq_some_iff.mp h
  rfl

theorem verifyMount_printAll : verifyMount checks (some (printAll ms)) expected true device = some (.ok ()) ↔
    HasDevice device (firstRead ms expected) := by
  simp only [verifyMount, parseMountinfo_printAll, Option.map_some, find?_filterMap_read]
  cases hf : firstRead ms expected
  case none => simp [HasDevice]
  case some m =>
    have found : m.read.any fun entry => samePath entry.mountPoint expected := by
      simpa using List.find?_some hf
    obtain ⟨entry, hr, _⟩ := (Option.any_eq_true _ _).mp found
    simp only [Option.bind_some, hr, device_of_read hr, HasDevice]
    by_cases same : device = some m.device.text
    case pos => simp [same]
    case neg => simp [same]

-- Where every line is read as it is, the mount that is looked at is the first one at the path.
theorem firstRead_of_legible (h : ∀ m ∈ ms, m.Legible) : firstRead ms expected = ms.find? (isAt expected) := by
  induction ms
  case nil => rfl
  case cons m ms hi =>
    have entry : m.read = some m.entry := read_eq_iff.mpr (h m List.mem_cons_self)
    have rest := hi fun n hn => h n (List.mem_cons_of_mem m hn)
    simp only [firstRead, List.find?_cons, entry, Option.any_some] at rest ⊢
    rw [rest]
    rfl

def VerifyLaw (checks : Bool) (ms : List Mount) (expected : Text) (device : Option Text) : Prop :=
  verifyMount checks (some (printAll ms)) expected true device = some (.ok ()) ↔ HasDevice device (topmost ms expected)

def data : Text :=
  ['/', 'd', 'a', 't', 'a']

end

end Mount

end MyDrive.Storage
