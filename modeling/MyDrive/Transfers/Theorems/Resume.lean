import MyDrive.Transfers.Resume
import MyDrive.Transfers.Theorems.Filled
import MyDrive.Transfers.Theorems.Responses

open Execution

namespace MyDrive.Transfers

namespace Files

variable [Digest] {f f' : Files} {owner id : Id} {e : Endpoint} {entry : DownloadRecord}
  {headers : RequestHeaders} {headOnly inlinePreview allowOriginal : Bool} {response : Response}
  {r : Representation} {bytes : List UInt8} {c c' : Content}

-- A checksum that is the one of the bytes, up to the case of its digits.
def Sums (checksum : String) (bytes : List UInt8) : Prop :=
  checksum.toList.map Char.toLower = (Digest.sha256 bytes).toList

-- What the rows say about the payload of a file.
def Recorded (f : Files) (entry : DownloadRecord) : Prop :=
  ∀ bytes, f.payloads.lookup entry.objectId = some bytes →
    entry.checksum = some (Digest.sha256 bytes) ∧ entry.size = bytes.length

theorem readMediaDerivative_sums {version : Id} {variant : Variant} {mime checksum : String}
    {maxBytes : Nat} (h : f.readMediaDerivative version variant mime maxBytes =
      .ok (some (bytes, checksum))) : Sums checksum bytes := by
  simp only [readMediaDerivative] at h
  split at h <;> try cases h
  split at h <;> try cases h
  split at h <;> try cases h
  split at h <;> cases h
  case h_2.refl hr =>
    simp only [readDerivative] at hr
    split at hr <;> try contradiction
    obtain ⟨_, hs⟩ := Option.filter_eq_some_iff.mp hr
    simp only [Bool.and_eq_true, decide_eq_true_eq] at hs
    exact hs.right.symm

-- The bytes of a representation, and its checksum.
structure Represents (f : Files) (entry : DownloadRecord) (r : Representation) (bytes : List UInt8) :
    Prop where
  source : r.derivative.or (f.payloads.lookup entry.objectId) = some bytes
  sums   : Sums r.checksum bytes
  size   : r.derivative.elim entry.size List.length = bytes.length

omit [Digest] in
theorem orOriginal_cases {original : Representation} {contentType : ContentType}
    {read : Except Unit (Option (List UInt8 × String))}
    (h : orOriginal allowOriginal original contentType read = .ok r) :
    r = original ∨ ∃ bytes, read = .ok (some (bytes, r.checksum)) ∧ r.derivative = some bytes := by
  simp only [orOriginal] at h
  split at h
  case h_1 bytes _ => cases h; exact .inr ⟨bytes, rfl, rfl⟩
  case h_2 => split at h <;> cases h; exact .inl rfl

theorem representation_cases (h : f.representation entry inlinePreview allowOriginal = .ok r) :
    r.derivative = none ∧ entry.checksum = some r.checksum ∨
    ∃ bytes, r.derivative = some bytes ∧ Sums r.checksum bytes := by
  cases inlinePreview <;> simp only [representation, Bool.false_eq_true, Bool.false_and, if_true,
    if_false] at h
  case false =>
    obtain ⟨mime, _, h⟩ := Except.bind_eq_ok_iff.mp h
    obtain ⟨_, h⟩ := Except.ite_throw_eq_ok_iff.mp h
    split at h
    case h_1 hc => cases h; exact .inl ⟨rfl, hc⟩
    case h_2    => contradiction
  case true =>
    obtain ⟨mime, _, h⟩ := Except.bind_eq_ok_iff.mp h
    obtain ⟨_, h⟩ := Except.ite_throw_eq_ok_iff.mp h
    split at h <;> try contradiction
    case h_1 checksum hc =>
      have original {contentType : ContentType} {read : Except Unit (Option (List UInt8 × String))}
          (hr : ∀ bytes checksum, read = .ok (some (bytes, checksum)) → Sums checksum bytes)
          (h : orOriginal allowOriginal { contentType := mime.elim .octetStream .media, checksum }
            contentType read = .ok r) : r.derivative = none ∧ entry.checksum = some r.checksum ∨
          ∃ bytes, r.derivative = some bytes ∧ Sums r.checksum bytes := by
        rcases orOriginal_cases h with rfl | ⟨bytes, hb, hd⟩
        case inl => exact .inl ⟨rfl, hc⟩
        case inr => exact .inr ⟨bytes, hd, hr _ _ hb⟩
      split at h
      case isTrue => exact original (fun _ _ => readMediaDerivative_sums) h
      case isFalse =>
        split at h
        case isTrue => exact original (fun _ _ => readMediaDerivative_sums) h
        case isFalse =>
          split at h <;> cases h
          exact .inl ⟨rfl, hc⟩

theorem represents (lower : Digest.Lowercase) (hr : f.Recorded entry)
    (h : f.representation entry inlinePreview allowOriginal = .ok r)
    (hs : r.derivative.or (f.payloads.lookup entry.objectId) = some bytes) :
    f.Represents entry r bytes := by
  rcases representation_cases h with ⟨hd, hc⟩ | ⟨bytes', hd, sums⟩
  case inl =>
    have payload := hs
    rw [hd, Option.none_or] at payload
    obtain ⟨sum, size⟩ := hr bytes payload
    rw [hc, Option.some.injEq] at sum
    exact ⟨hs, by rw [sum]; exact lower bytes, by rw [hd]; exact size⟩
  case inr =>
    have same := hs
    rw [hd, Option.some_or, Option.some.injEq] at same
    exact ⟨hs, same ▸ sums, by rw [hd, ← same]; rfl⟩

omit [Digest] in
theorem documentBody_ranges {kind : DocumentPreviewKind} {contentType : ContentType}
    {body : List UInt8 → Body} [Services] (h : f.documentBody entry kind = .ok (bytes, contentType, body)) :
    (body bytes).bytes = bytes := by
  cases kind <;> simp only [documentBody] at h
  case pdf => contradiction
  case text =>
    obtain ⟨_, h⟩ := Except.ite_throw_eq_ok_iff.mp h
    split at h <;> try contradiction
    obtain ⟨_, h⟩ := Except.ite_throw_eq_ok_iff.mp h
    cases h
    rfl
  case office =>
    obtain ⟨_, h⟩ := Except.ite_throw_eq_ok_iff.mp h
    split at h <;> try contradiction
    split at h <;> try contradiction
    obtain ⟨pdf, _, h⟩ := Except.bind_eq_ok_iff.mp h
    cases h
    rfl

theorem openBody_ok (start length : Nat) (hr : f.Represents entry r bytes) : ∃ body,
    f.openBody entry r start length = .ok body ∧ body.bytes = (bytes.drop start).take length := by
  have source := hr.source
  simp only [openBody]
  split
  case h_1 hd =>
    rw [hd, Option.some_or, Option.some.injEq] at source
    exact ⟨_, rfl, by rw [source]; rfl⟩
  case h_2 hd =>
    rw [hd, Option.none_or] at source
    rw [source]
    exact ⟨_, rfl, rfl⟩

variable [Services]

-- A range is only served from the bytes that the rows are about, and under their validators.
structure Serves (createdAt : Time) (checksum : String) (bytes : List UInt8) (headers : RequestHeaders)
    (headOnly : Bool) (response : Response) : Prop where
  etag         : response.etag = "\"" ++ checksum ++ "\""
  lastModified : response.lastModified = some createdAt
  parts        : response.status = 206 → ∃ range,
    parseRange headers.range bytes.length = some (some range) ∧
    response.contentRange = some (range, bytes.length) ∧
    (headOnly = false → response.body.bytes = (bytes.drop range.start).take range.len) ∧
    ∀ value, headers.ifRange = some (some value) → ifRangeMatches value ("\"" ++ checksum ++ "\"")
      (Services.second createdAt)

theorem respond_serves (hr : f.Represents entry r bytes)
    (h : f.respond entry headers headOnly r = .ok response) :
    Serves entry.versionCreatedAt r.checksum bytes headers headOnly response := by
  simp only [respond, Services.parse_fmt, hr.size] at h
  split at h
  case isTrue => cases h; exact ⟨rfl, rfl, by simp⟩
  case isFalse =>
    split at h <;> try contradiction
    case h_1 range hp =>
      have asked {range' : ByteRange} (he : range = some range') :
          parseRange headers.range bytes.length = some (some range') ∧
          ∀ value, headers.ifRange = some (some value) → ifRangeMatches value
            ("\"" ++ r.checksum ++ "\"") (Services.second entry.versionCreatedAt) := by
        subst he
        split at hp
        case isTrue current => exact ⟨hp, fun value hv => by simpa [hv] using current⟩
        case isFalse        => cases hp
      cases headOnly
      case true =>
        cases h
        refine ⟨rfl, rfl, fun hs => ?_⟩
        cases range
        case none       => simp at hs
        case some range => exact ⟨range, (asked rfl).left, rfl, by simp, (asked rfl).right⟩
      case false =>
        obtain ⟨body, hb, h⟩ := Except.bind_eq_ok_iff.mp h
        cases h
        refine ⟨rfl, rfl, fun hs => ?_⟩
        cases range
        case none => simp at hs
        case some range =>
          obtain ⟨body', hb', same⟩ := openBody_ok range.start range.len hr
          cases hb'.symm.trans hb
          exact ⟨range, (asked rfl).left, rfl, fun _ => same, (asked rfl).right⟩

theorem respond_plain (hr : f.Represents entry r bytes) : ∃ response,
    f.respond entry {} false r = .ok response ∧ response.body.bytes = bytes := by
  obtain ⟨body, hb, same⟩ := openBody_ok 0 bytes.length hr
  simp only [respond, Services.parse_fmt, hr.size, List.any_nil, Bool.false_eq_true, if_false,
    Option.all_none, if_true, parseRange, Option.elim_none, hb]
  exact ⟨_, rfl, by simpa using same⟩

omit [Digest] [Services] in
theorem parseRange_all (h : bytes ≠ []) : parseRange (some "bytes=0-") bytes.length =
    some (some { start := 0, last := bytes.length - 1 }) := by
  obtain ⟨n, hl⟩ := Nat.exists_eq_succ_of_ne_zero (List.length_pos_iff.mpr h).ne'
  rw [hl]
  rfl

omit [Digest] [Services] in
theorem ne_nil_of_parseRange {value : Option String} {range : ByteRange}
    (h : parseRange value bytes.length = some (some range)) : bytes ≠ [] := by
  rintro rfl
  cases value
  case none       => simp [parseRange] at h
  case some value => simp [parseRange] at h

-- Under a validator that matches, all of the bytes may be asked for as one range.
theorem respond_range {validator : String} (hr : f.Represents entry r bytes) (hn : bytes ≠ [])
    (hv : ifRangeMatches validator ("\"" ++ r.checksum ++ "\"")
      (Services.second entry.versionCreatedAt)) : ∃ response,
    f.respond entry { ifRange := some (some validator), range := some "bytes=0-" } false r =
      .ok response ∧ response.status = 206 ∧ response.body.bytes = bytes := by
  have length : bytes.length - 1 - 0 + 1 = bytes.length := by
    have := List.length_pos_iff.mpr hn
    omega
  obtain ⟨body, hb, same⟩ := openBody_ok 0 bytes.length hr
  simp only [respond, Services.parse_fmt, hr.size, List.any_nil, Bool.false_eq_true, if_false,
    Option.all_some, Option.any_some, hv, if_true, parseRange_all hn, Option.elim_some,
    ByteRange.len, length, hb]
  exact ⟨_, rfl, rfl, by simpa using same⟩

def reply (f : Files) (entry : DownloadRecord) (headers : RequestHeaders) (headOnly : Bool) :
    Representation ⊕ DocumentPreviewKind → Except ResponseError Response
  | .inl r    => f.respond entry headers headOnly r
  | .inr kind => f.documentPreviewResponse entry kind headOnly

omit [Digest] [Services] in
theorem toOption_eq_some_iff {ε α : Type} {x : Except ε α} {a : α} : x.toOption = some a ↔ x = .ok a := by
  cases x <;> simp [Except.toOption]

-- The code of an endpoint goes by what it chooses for the file.
theorem answer_eq : f.answer owner id e headers headOnly =
    f.source owner id e >>= fun r => f.reply r.1 headers headOnly r.2 := by
  have download {entry : DownloadRecord} {inlinePreview allowOriginal : Bool}
      (he : f.loadDownloadRecord owner id = .ok entry) (ready : entry.state = .ready) :
      f.downloadResponseInner owner id headers headOnly inlinePreview allowOriginal =
        f.representation entry inlinePreview allowOriginal >>= fun r =>
          f.reply entry headers headOnly (.inl r) := by
    rw [downloadResponseInner, he, Except.ok_bind, if_neg (not_not_intro ready)]
    rfl
  have preview {allowOriginal : Bool} (hn : e ≠ .download) (ha : allowOriginal = decide (e = .preview)) :
      f.previewResponseInner owner id headers headOnly allowOriginal =
        f.source owner id e >>= fun r => f.reply r.1 headers headOnly r.2 := by
    subst ha
    rw [previewResponseInner, source]
    cases he : f.loadDownloadRecord owner id
    case error => rfl
    case ok entry =>
      simp only [Except.ok_bind, hn, if_false]
      by_cases ready : entry.state = .ready
      case neg => rw [if_pos ready, if_pos ready]; rfl
      case pos =>
        rw [if_neg (not_not_intro ready), if_neg (not_not_intro ready)]
        cases hh : f.readStorageHeader entry.objectId
        case error => rfl
        case ok header =>
          simp only [Except.ok_bind]
          cases documentPreviewKind entry.name header
          case none =>
            dsimp only
            rw [download he ready]
            cases f.representation entry true _ <;> rfl
          case some kind =>
            cases kind <;> dsimp only
            case pdf => rw [download he ready]; cases f.representation entry true true <;> rfl
            all_goals rfl
  cases e
  case preview           => exact preview (by simp) rfl
  case previewDerivative => exact preview (by simp) rfl
  case download =>
    rw [answer, downloadResponse, source]
    cases he : f.loadDownloadRecord owner id
    case error => rw [downloadResponseInner, he]; rfl
    case ok entry =>
      simp only [Except.ok_bind, if_true]
      by_cases ready : entry.state = .ready
      case neg =>
        rw [downloadResponseInner, he, Except.ok_bind, if_pos ready, if_pos ready]
        rfl
      case pos =>
        rw [download he ready, if_neg (not_not_intro ready)]
        cases f.representation entry false true <;> rfl

theorem content_eq_some_iff : f.content owner id e = some c ↔
    ∃ entry s, f.source owner id e = .ok (entry, s) ∧ f.contentOf entry s = some c := by
  rw [content]
  cases hs : f.source owner id e
  case error => simp [Except.toOption]
  case ok r =>
    constructor
    case mp => exact fun h => ⟨_, _, rfl, h⟩
    case mpr =>
      rintro ⟨_, _, he, h⟩
      cases he
      exact h

omit [Services] in
theorem entry_of_source {s : Representation ⊕ DocumentPreviewKind}
    (h : f.source owner id e = .ok (entry, s)) : f.record owner id = some entry ∧
      entry.state = .ready ∧ ∀ r, s = .inl r → ∃ inlinePreview allowOriginal,
        f.representation entry inlinePreview allowOriginal = .ok r := by
  obtain ⟨entry', he, h⟩ := Except.bind_eq_ok_iff.mp h
  obtain ⟨ready, h⟩ := Except.ite_throw_eq_ok_iff.mp h
  have record : f.record owner id = some entry' := by
    simp only [loadDownloadRecord] at he
    split at he
    case h_1 => contradiction
    case h_2 =>
      cases hr : f.record owner id
      case none    => simp [hr] at he
      case some e' => simpa [hr] using he
  have state : entry'.state = .ready := not_not.mp ready
  have chosen {inlinePreview allowOriginal : Bool}
      (h : (f.representation entry' inlinePreview allowOriginal >>= fun r =>
        pure (entry', Sum.inl r)) = Except.ok (entry, s)) : f.record owner id = some entry ∧
        entry.state = .ready ∧ ∀ r, s = .inl r → ∃ inlinePreview allowOriginal,
          f.representation entry inlinePreview allowOriginal = .ok r := by
    obtain ⟨r, hr, h⟩ := Except.bind_eq_ok_iff.mp h
    cases h
    refine ⟨record, state, fun r' he => ?_⟩
    cases he
    exact ⟨_, _, hr⟩
  split at h
  case isTrue => exact chosen h
  case isFalse =>
    obtain ⟨header, _, h⟩ := Except.bind_eq_ok_iff.mp h
    split at h
    case h_1 => exact chosen h
    case h_2 => cases h; exact ⟨record, state, by simp⟩
    case h_3 => exact chosen h

theorem documentPreviewResponse_ok_iff {kind : DocumentPreviewKind} :
    f.documentPreviewResponse entry kind headOnly = .ok response ↔ ∃ bytes contentType body,
      f.documentBody entry kind = .ok (bytes, contentType, body) ∧ response = {
        status := 200, contentType, etag := "\"" ++ Digest.sha256 bytes ++ "\""
        lastModified := some entry.versionCreatedAt, contentLength := some bytes.length
        body := if headOnly then .empty else body bytes } := by
  simp only [documentPreviewResponse, Except.bind_eq_ok_iff, Prod.exists, pure, Except.pure,
    Except.ok.injEq]
  constructor
  all_goals
    rintro ⟨bytes, contentType, body, hb, rfl⟩
    exact ⟨bytes, contentType, body, hb, rfl⟩

-- The rows of a file that is ready are about its payload.
def Intact (f : Files) : Prop :=
  ∀ owner id entry, f.record owner id = some entry → entry.state = .ready → f.Recorded entry

-- Whatever is answered, the validators are those of the content, and a range is one of its bytes.
theorem answer_serves (lower : Digest.Lowercase) (intact : f.Intact)
    (hc : f.content owner id e = some c)
    (h : f.answer owner id e headers headOnly = .ok response) : ∃ checksum, Sums checksum c.bytes ∧
      Serves c.createdAt checksum c.bytes headers headOnly response := by
  obtain ⟨entry, s, hs, hc⟩ := content_eq_some_iff.mp hc
  rw [answer_eq, hs, Except.ok_bind] at h
  obtain ⟨record, ready, chosen⟩ := entry_of_source hs
  cases s
  case inl r =>
    obtain ⟨bytes, hb, rfl⟩ := Option.map_eq_some_iff.mp hc
    obtain ⟨_, _, hr⟩ := chosen r rfl
    have represents := represents lower (intact _ _ _ record ready) hr hb
    exact ⟨r.checksum, represents.sums, respond_serves represents h⟩
  case inr kind =>
    obtain ⟨⟨bytes, contentType, body⟩, hb, rfl⟩ := Option.map_eq_some_iff.mp hc
    obtain ⟨_, _, _, hb', rfl⟩ := documentPreviewResponse_ok_iff.mp h
    cases (toOption_eq_some_iff.mp hb).symm.trans hb'
    exact ⟨_, lower bytes, rfl, rfl, by simp⟩

theorem content_inl (lower : Digest.Lowercase) (intact : f.Intact)
    (hs : f.source owner id e = .ok (entry, .inl r))
    (hb : r.derivative.or (f.payloads.lookup entry.objectId) = some bytes) :
    f.Represents entry r bytes ∧ f.content owner id e = some {
      bytes, createdAt := entry.versionCreatedAt, ranged := true } := by
  obtain ⟨record, ready, chosen⟩ := entry_of_source hs
  obtain ⟨_, _, hr⟩ := chosen r rfl
  refine ⟨represents lower (intact _ _ _ record ready) hr hb, ?_⟩
  rw [content_eq_some_iff]
  exact ⟨entry, .inl r, hs, by rw [contentOf, hb, Option.map_some]⟩

-- What has a body has a content.
theorem content_of_answer (h : f.answer owner id e headers false = .ok response)
    (hn : headers.ifNoneMatch = [] ∨ response.status ≠ 304) : ∃ c, f.content owner id e = some c ∧
      (response.status = 206 → c.ranged) := by
  rw [answer_eq] at h
  obtain ⟨⟨entry, s⟩, hs, h⟩ := Except.bind_eq_ok_iff.mp h
  cases s
  case inl r =>
    have source : ∃ bytes, r.derivative.or (f.payloads.lookup entry.objectId) = some bytes := by
      simp only [reply, respond, Services.parse_fmt] at h
      split at h
      case isTrue matched =>
        cases h
        rcases hn with none | hn
        case inl => simp [none] at matched
        case inr => exact absurd rfl hn
      case isFalse =>
        split at h <;> try contradiction
        obtain ⟨body, hb, _⟩ := Except.bind_eq_ok_iff.mp h
        simp only [openBody] at hb
        split at hb
        case h_1 bytes hd => exact ⟨bytes, by rw [hd, Option.some_or]⟩
        case h_2 hd =>
          cases hp : f.payloads.lookup entry.objectId
          case none       => simp [hp] at hb
          case some bytes => exact ⟨bytes, by rw [hd, Option.none_or]⟩
    obtain ⟨bytes, hb⟩ := source
    refine ⟨{ bytes, createdAt := entry.versionCreatedAt, ranged := true }, ?_, fun _ => rfl⟩
    rw [content_eq_some_iff]
    exact ⟨entry, .inl r, hs, by rw [contentOf, hb, Option.map_some]⟩
  case inr kind =>
    obtain ⟨bytes, contentType, body, hb, rfl⟩ := documentPreviewResponse_ok_iff.mp h
    refine ⟨{ bytes, createdAt := entry.versionCreatedAt, ranged := false }, ?_, by simp⟩
    rw [content_eq_some_iff]
    exact ⟨entry, .inr kind, hs, by rw [contentOf, hb]; rfl⟩

theorem answer_plain (lower : Digest.Lowercase) (intact : f.Intact)
    (hc : f.content owner id e = some c) : ∃ response,
      f.answer owner id e {} false = .ok response ∧ response.body.bytes = c.bytes := by
  obtain ⟨entry, s, hs, hc⟩ := content_eq_some_iff.mp hc
  rw [answer_eq, hs, Except.ok_bind]
  cases s
  case inl r =>
    obtain ⟨bytes, hb, rfl⟩ := Option.map_eq_some_iff.mp hc
    exact respond_plain (content_inl lower intact hs hb).left
  case inr kind =>
    obtain ⟨⟨bytes, contentType, body⟩, hb, rfl⟩ := Option.map_eq_some_iff.mp hc
    have hb := toOption_eq_some_iff.mp hb
    refine ⟨_, documentPreviewResponse_ok_iff.mpr ⟨_, _, _, hb, rfl⟩, ?_⟩
    exact documentBody_ranges hb

theorem plain_eq_some_iff (lower : Digest.Lowercase) (intact : f.Intact) :
    f.plain owner id e = some bytes ↔ ∃ c, f.content owner id e = some c ∧ c.bytes = bytes := by
  have plain {c : Content} (hc : f.content owner id e = some c) :
      f.plain owner id e = some c.bytes := by
    obtain ⟨response, h, same⟩ := answer_plain lower intact hc
    rw [Files.plain, h, ← same]
    rfl
  constructor
  case mp =>
    intro h
    obtain ⟨response, hr, _⟩ := Option.map_eq_some_iff.mp h
    have hr := toOption_eq_some_iff.mp hr
    obtain ⟨c, hc, _⟩ := content_of_answer hr (.inl rfl)
    exact ⟨c, hc, Option.some.inj ((plain hc).symm.trans h)⟩
  case mpr =>
    rintro ⟨c, hc, rfl⟩
    exact plain hc

theorem answer_range {validator : String} (lower : Digest.Lowercase) (intact : f.Intact)
    (hc : f.content owner id e = some c) (ranged : c.ranged) (hn : c.bytes ≠ [])
    (hv : ∀ etag, ifRangeMatches validator etag (Services.second c.createdAt)) : ∃ response,
    f.answer owner id e { ifRange := some (some validator), range := some "bytes=0-" } false =
      .ok response ∧ response.status = 206 ∧ response.body.bytes = c.bytes := by
  obtain ⟨entry, s, hs, hc⟩ := content_eq_some_iff.mp hc
  rw [answer_eq, hs, Except.ok_bind]
  cases s
  case inl r =>
    obtain ⟨bytes, hb, rfl⟩ := Option.map_eq_some_iff.mp hc
    exact respond_range (content_inl lower intact hs hb).left hn (hv _)
  case inr kind =>
    obtain ⟨_, _, rfl⟩ := Option.map_eq_some_iff.mp hc
    contradiction

omit [Digest] in
theorem ifRangeMatches_etag {checksum checksum' : String} {t : Time}
    (h : ifRangeMatches ("\"" ++ checksum ++ "\"") ("\"" ++ checksum' ++ "\"") t) :
    checksum = checksum' := by
  simp only [ifRangeMatches, String.toList_append] at h
  have same : "\"" ++ checksum ++ "\"" = "\"" ++ checksum' ++ "\"" := by
    simpa [List.isPrefixOf] using h
  simpa [← String.toList_inj] using same

omit [Digest] in
theorem ifRangeMatches_date {etag : String} {t t' : Time} :
    ifRangeMatches (Services.fmtHttpDate t) etag t' ↔ t' ≤ Services.second t := by
  rw [ifRangeMatches, Services.fmt_plain.left, if_neg Bool.false_ne_true,
    if_neg Services.fmt_plain.right, Services.parse_fmt, Option.any_some, decide_eq_true_eq]

omit [Services] in
theorem eq_of_sums (injective : Function.Injective Digest.sha256) {checksum : String}
    {bytes' : List UInt8} (h : Sums checksum bytes) (h' : Sums checksum bytes') : bytes = bytes' :=
  injective (String.toList_inj.mp (h.symm.trans h'))

-- As long as the second request still finds the bytes of the first, or its validator out of date.
theorem resumes_iff_discerned (injective : Function.Injective Digest.sha256) (lower : Digest.Lowercase)
    (intact : f.Intact) (intact' : f'.Intact) {e' : Endpoint} :
    f.Resumes f' owner id e e' ↔ f.Discerned f' owner id e e' := by
  constructor
  case mp =>
    intro h c c' hc hc' ranged hn differ
    by_contra later
    obtain ⟨first, hf, _⟩ := answer_plain lower intact hc
    obtain ⟨_, _, serves⟩ := answer_serves lower intact hc hf
    have matched (etag : String) : ifRangeMatches (Services.fmtHttpDate c.createdAt) etag
        (Services.second c'.createdAt) := ifRangeMatches_date.mpr (Nat.le_of_not_lt later)
    obtain ⟨second, hs, parts, same⟩ := answer_range lower intact' hc' ranged hn matched
    have plain := (plain_eq_some_iff lower intact).mpr ⟨c, hc, rfl⟩
    obtain ⟨range, hr, _, slice⟩ := h hf plain (.inr ⟨_, serves.lastModified, rfl⟩) rfl hs parts
    have full := ne_nil_of_parseRange hr
    cases (parseRange_all full).symm.trans hr
    refine differ (same.symm.trans (slice.trans (List.take_of_length_le ?_)))
    simp only [ByteRange.len, List.length_drop]
    omega
  case mpr =>
    intro h headers headers' headOnly first second bytes validator hf plain valid hv hs parts
    obtain ⟨c, hc, rfl⟩ := (plain_eq_some_iff lower intact).mp plain
    obtain ⟨c', hc', ranged⟩ := content_of_answer hs (.inr (by simp [parts]))
    obtain ⟨checksum, sums, serves⟩ := answer_serves lower intact hc hf
    obtain ⟨checksum', sums', serves'⟩ := answer_serves lower intact' hc' hs
    obtain ⟨range, hr, total, slice, matched⟩ := serves'.parts parts
    have same : c'.bytes = c.bytes := by
      rcases valid with rfl | ⟨t, ht, rfl⟩
      case inl =>
        have matched := matched _ hv
        rw [serves.etag] at matched
        cases ifRangeMatches_etag matched
        exact eq_of_sums injective sums' sums
      case inr =>
        cases serves.lastModified.symm.trans ht
        by_contra differ
        have later := h _ _ hc hc' (ranged parts) (ne_nil_of_parseRange hr) differ
        exact absurd (ifRangeMatches_date.mp (matched _ hv)) (Nat.not_le_of_lt later)
    exact ⟨range, same ▸ hr, same ▸ total, same ▸ slice rfl⟩

end Files

namespace Site

variable [Collation] [Digest] {s s' : Site}

theorem whole (r : Reaches step {} s) :
    Shared.Holds Store.Whole (fun s c => c.Bound s ∧ c.Fits s) s.transfers := by
  refine r.invariant (I := fun s => Shared.Holds Store.Whole _ s.transfers) System.whole_init
    fun {s c s'} h _ hs => ?_
  cases c <;> simp only [step] at hs
  case transfer a =>
    obtain ⟨t, ht, rfl⟩ := Option.map_eq_some_iff.mp hs
    exact System.whole_step h ht
  all_goals cases hs; exact h

theorem intact (r : Reaches step {} s) : s.files.Intact := by
  intro owner id entry he ready bytes hb
  simp only [Files.record, Option.bind_eq_bind, Option.bind_eq_some_iff] at he
  obtain ⟨_, _, _, _, _, _, w, hw, o, ho, he⟩ := he
  split at he <;> cases he
  simp only [files, Table.lookup_map] at ho hw hb
  obtain ⟨x, hx, rfl⟩ := Option.map_eq_some_iff.mp ho
  have filled := (whole r).store.filled
  obtain ⟨sum, size⟩ := filled.ready hx ready hb
  exact ⟨sum, (filled.versions hw hx).trans size.symm⟩

variable [Services] {owner id : Id} {e e' : Endpoint}

theorem resumes_iff (injective : Function.Injective Digest.sha256) (lower : Digest.Lowercase)
    (r : Reaches step {} s) (r' : Reaches step s s') :
    s.files.Resumes s'.files owner id e e' ↔ s.files.Discerned s'.files owner id e e' :=
  Files.resumes_iff_discerned injective lower (intact r) (intact (r.trans r'))

end Site
section

-- The first bytes of a picture, and of the picture that is derived from it.
def jpeg : List UInt8 := [0xff, 0xd8, 0xff, 0xe0]

def webp : List UInt8 := ascii "RIFF" ++ [4, 0, 0, 0] ++ ascii "WEBP"

-- SHA-256 of the two, where all other bytes are spelled out in letters beyond ASCII.
abbrev Digest.pictures : Digest where
  sha256 bytes :=
    if bytes = jpeg then "ba4f25bf16ba4be6bc7d3276fafeb67f9eb3c5df042bc3a405e1af15b921eed7"
    else if bytes = webp then "3fe79651a92ea3850c3fc3dd9519a67c7f70b598fa238a3fd92042f6446e6452"
    else .ofList (bytes.map fun b => .ofNat (b.toNat + 256))

attribute [local instance] Collation.binary Digest.pictures Services.offline

theorem Digest.pictures_lowercase : Digest.Lowercase := by
  have letter : ∀ n < 256, (Char.ofNat (n + 256)).toLower = .ofNat (n + 256) := by decide +kernel
  intro bytes
  simp only [Digest.sha256]
  split
  case isTrue => decide +kernel
  case isFalse =>
    split
    case isTrue  => decide +kernel
    case isFalse => simp [fun b : UInt8 => letter b.toNat b.toNat_lt]

theorem Digest.pictures_injective : Function.Injective Digest.sha256 := by
  have letter : ∀ n < 256, (Char.ofNat (n + 256)).toNat = n + 256 := by decide +kernel
  have apart {bytes : List UInt8} {s : String} (hs : s.toList.head?.any (·.toNat < 256)) :
      String.ofList (bytes.map fun b => .ofNat (b.toNat + 256)) ≠ s := by
    rintro rfl
    cases bytes
    case nil => simp at hs
    case cons x a =>
      simp only [String.toList_ofList, List.map_cons, List.head?_cons, Option.any_some,
        letter x.toNat x.toNat_lt, decide_eq_true_eq] at hs
      omega
  let read (s : String) : List UInt8 :=
    if s = "ba4f25bf16ba4be6bc7d3276fafeb67f9eb3c5df042bc3a405e1af15b921eed7" then jpeg
    else if s = "3fe79651a92ea3850c3fc3dd9519a67c7f70b598fa238a3fd92042f6446e6452" then webp
    else s.toList.map fun c => .ofNat (c.toNat - 256)
  refine Function.LeftInverse.injective (g := read) fun bytes => ?_
  simp only [Digest.sha256]
  split
  case isTrue h => rw [h]; decide +kernel
  case isFalse =>
    split
    case isTrue h => rw [h]; decide +kernel
    case isFalse =>
      have same (b : UInt8) : UInt8.ofNat ((Char.ofNat (b.toNat + 256)).toNat - 256) = b := by
        rw [letter b.toNat b.toNat_lt, Nat.add_sub_cancel, UInt8.ofNat_toNat]
      simp only [read]
      rw [if_neg (apart (by decide +kernel)), if_neg (apart (by decide +kernel)),
        String.toList_ofList, List.map_map]
      exact (List.map_congr_left fun b _ => same b).trans (List.map_id bytes)

-- The picture is uploaded as the file 5, and the derivative is published later.
def pictured : List Change :=
  let session := {
    ownerId := 7, filename := "a.jpg", stagingKey := 0, expectedSize := 4, expiresAt := 10 }
  [.transfer (.start 0 (.upload session jpeg)), .transfer (.start 0 (.finalize 7 1 none))] ++
    List.replicate 11 (.transfer (.next 0 {})) ++
    [.arrange (Table.empty.set 5 { ownerId := 7, parentId := none, kind := .file, name := "a.jpg" })]

def derived : List Change :=
  [.publish
    (Table.empty.set (4, .viewer, 1) {
      mimeType := "image/webp", size := 12
      checksum := "3fe79651a92ea3850c3fc3dd9519a67c7f70b598fa238a3fd92042f6446e6452" })
    (some (Table.empty.set (4, .viewer, 1) webp))]

-- The download stays the picture itself when the derivative is published.
theorem resumes_iff_download : ∃ s s', Reaches Site.step {} s ∧ Reaches Site.step s s' ∧
    (s'.files.content 7 5 .preview).map (·.bytes) = some webp ∧
    s.files.Resumes s'.files 7 5 .download .download := by
  have run : (Execution.run Site.step {} pictured).map (fun s => (s.files.content 7 5 .download,
      (Execution.run Site.step s derived).map fun s' => (s'.files.content 7 5 .download,
        (s'.files.content 7 5 .preview).map (·.bytes)))) =
      some (some { bytes := jpeg, createdAt := 0, ranged := true },
        some (some { bytes := jpeg, createdAt := 0, ranged := true }, some webp)) := by
    decide +kernel
  obtain ⟨s, hs, he⟩ := Option.map_eq_some_iff.mp run
  obtain ⟨hc, he⟩ := Prod.mk.inj he
  obtain ⟨s', hs', he⟩ := Option.map_eq_some_iff.mp he
  obtain ⟨hc', hp⟩ := Prod.mk.inj he
  have r := Execution.reaches_of_run hs
  have r' := Execution.reaches_of_run hs'
  refine ⟨s, s', r, r', hp, (Site.resumes_iff Digest.pictures_injective Digest.pictures_lowercase
    r r').mpr fun c c' h h' _ _ differ => ?_⟩
  cases hc.symm.trans h
  cases hc'.symm.trans h'
  exact absurd rfl differ

-- The date of the picture is that of its version, under which the derivative is served as well.
theorem preview_mixed : ∃ s s', Reaches Site.step {} s ∧ Reaches Site.step s s' ∧
    ¬s.files.Resumes s'.files 7 5 .preview .preview := by
  have run : (Execution.run Site.step {} pictured).map (fun s => (s.files.content 7 5 .preview,
      (Execution.run Site.step s derived).map fun s' => s'.files.content 7 5 .preview)) =
      some (some { bytes := jpeg, createdAt := 0, ranged := true },
        some (some { bytes := webp, createdAt := 0, ranged := true })) := by
    decide +kernel
  obtain ⟨s, hs, he⟩ := Option.map_eq_some_iff.mp run
  obtain ⟨hc, he⟩ := Prod.mk.inj he
  obtain ⟨s', hs', hc'⟩ := Option.map_eq_some_iff.mp he
  have r := Execution.reaches_of_run hs
  have r' := Execution.reaches_of_run hs'
  refine ⟨s, s', r, r', fun h => ?_⟩
  have discerned := (Files.resumes_iff_discerned Digest.pictures_injective
    Digest.pictures_lowercase (Site.intact r) (Site.intact (r.trans r'))).mp h
  exact absurd (discerned _ _ hc hc' rfl (by decide) (by decide)) (Nat.lt_irrefl 0)

end
end MyDrive.Transfers
