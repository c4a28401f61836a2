import Nozomi.Handling.FileResponse
import Nozomi.Time.HttpDate

/-! Requests that ask for a file only if it is newer than a date. The date is in
GMT, and `mktime` reads its fields as local time. -/
namespace Nozomi

open Text Filesystem Calendar

/-- The fields that the format of the source names; the others are kept. -/
def Tm.setDate (tm : Tm) (date : HttpDate) : Tm :=
  { tm with
    sec := date.sec
    min := date.min
    hour := date.hour
    mday := date.mday
    mon := date.mon.val
    year := (date.year : Int) - 1900
    wday := date.wday.val }

/-- The documented behaviour on dates. `zone` tells by how many seconds local
time is ahead of GMT at a local time, with daylight saving as `isdst` asks. -/
structure TimeLibrary.Documented (time : TimeLibrary) (zone : Tm → Int) : Prop where
  strptime : ∀ (date : HttpDate) tm,
    time.strptime date.write (ascii "%a, %d %b %Y %T") tm = some (tm.setDate date)
  mktime : ∀ (date : HttpDate) (tm : Tm),
    time.mktime (tm.setDate date) = date.instant - zone (tm.setDate date)

/-- One conversion of a format, without the leading white space and the long
names that are also accepted. -/
def readDirective (directive : Byte) (text : Bytes) (tm : Tm) : Option (Tm × Bytes) :=
  if directive = 0x61 then
    (readName dayNames text).map fun found => ({ tm with wday := found.1 }, found.2)
  else if directive = 0x62 then
    (readName monthNames text).map fun found => ({ tm with mon := found.1 }, found.2)
  else if directive = 0x64 then
    (readNumber 1 31 2 text).map fun found => ({ tm with mday := found.1 }, found.2)
  else if directive = 0x59 then
    (readNumber 0 9999 4 text).map fun found =>
      ({ tm with year := (found.1 : Int) - 1900 }, found.2)
  else if directive = 0x54 then do
    let (hour, text) ← readNumber 0 23 2 text
    let text ← dropColon text
    let (min, text) ← readNumber 0 59 2 text
    let text ← dropColon text
    let (sec, text) ← readNumber 0 61 2 text
    return ({ tm with hour := hour, min := min, sec := sec }, text)
  else none
where
  dropColon : Bytes → Option Bytes
    | 0x3A :: text => some text
    | _ => none

/-- `strptime`, which leaves unread what follows the format. -/
def readFormat : Bytes → Bytes → Tm → Option Tm
  | [], _, tm => some tm
  | 0x25 :: directive :: format, text, tm =>
      (readDirective directive text tm).bind fun found => readFormat format found.2 found.1
  | 0x20 :: format, text, tm => readFormat format (text.dropWhile (· = space)) tm
  | c :: format, text, tm =>
      match text with
      | d :: text => if c = d then readFormat format text tm else none
      | [] => none

/-- The time functions of a process in some time zone. -/
def localTime (zone : Tm → Int) : TimeLibrary where
  strptime text format tm := readFormat format text tm
  mktime tm :=
    secondsSinceEpoch tm.year (dayOfYear (tm.year + 1900) tm.mon.toNat tm.mday) tm.hour tm.min
      tm.sec - zone tm

/-- A space of the format skips the one space before a text that does not begin with
another. -/
theorem readFormat_space {format text : Bytes} (hText : text.head? ≠ some space) (tm : Tm) :
    readFormat (0x20 :: format) (ascii " " ++ text) tm = readFormat format text tm := by
  have hDrop : (ascii " " ++ text).dropWhile (· = space) = text := by
    cases text with
    | nil => rfl
    | cons c text =>
        have hHead : c ≠ space := by simpa using hText
        rw [List.dropWhile_append_of_pos (by decide +kernel),
          List.dropWhile_cons_of_neg (by simpa using hHead)]
  rw [readFormat, hDrop]

theorem head_digits (width n : Nat) (rest : Bytes) :
    (digits (width + 1) n ++ rest).head? ≠ some space := by
  intro hHead
  have hMem : space ∈ digits (width + 1) n := by
    rw [digits, List.cons_append, List.head?_cons] at hHead
    exact Option.some.inj hHead ▸ List.mem_cons_self ..
  exact absurd (digitValue_of_mem hMem) (by decide)

theorem head_monthName (mon : Fin 12) (rest : Bytes) :
    (monthNames.getD mon [] ++ rest).head? ≠ some space := by
  match mon with
  | 0 | 1 | 2 | 3 | 4 | 5 | 6 | 7 | 8 | 9 | 10 | 11 =>
      exact fun hHead => absurd (Option.some.inj hHead) (by decide)

theorem readDirective_time (date : HttpDate) (tm : Tm) (rest : Bytes) :
    readDirective 0x54 (digits 2 date.hour ++ (ascii ":" ++ (digits 2 date.min ++ (ascii ":" ++
        (digits 2 date.sec ++ rest))))) tm =
      some ({ tm with hour := date.hour, min := date.min, sec := date.sec }, rest) := by
  have hHour := readNumber_digits (by decide : 1 ≤ 2) (Nat.zero_le _)
    (Nat.le_of_lt_succ date.hour_lt) (Nat.lt_trans date.hour_lt (by decide))
  have hMin := readNumber_digits (by decide : 1 ≤ 2) (Nat.zero_le _)
    (Nat.le_of_lt_succ date.min_lt) (Nat.lt_trans date.min_lt (by decide))
  have hSec := readNumber_digits (by decide : 1 ≤ 2) (Nat.zero_le _)
    (Nat.le_trans date.sec_le (by decide : 60 ≤ 61)) (Nat.lt_of_le_of_lt date.sec_le (by decide))
  have hColon : ∀ text : Bytes, readDirective.dropColon (ascii ":" ++ text) = some text :=
    fun _ => rfl
  have hOther : (0x54 : Byte) ≠ 0x61 ∧ (0x54 : Byte) ≠ 0x62 ∧ (0x54 : Byte) ≠ 0x64 ∧
      (0x54 : Byte) ≠ 0x59 := by decide
  simp only [readDirective, hOther, if_false, if_true, hHour, hMin, hSec, hColon, Option.bind_eq_bind,
    Option.bind_some]
  rfl

/-- A date is read back from its text in the format that the source passes to
`strptime`. -/
theorem readFormat_date (date : HttpDate) (tm : Tm) :
    readFormat (ascii "%a, %d %b %Y %T") date.write tm = some (tm.setDate date) := by
  have hDay : ∀ rest tm, readDirective 0x61 (dayNames.getD date.wday [] ++ rest) tm =
      some ({ tm with wday := date.wday.val }, rest) := by
    intro rest tm
    rw [readDirective, if_pos rfl, readName_dayNames, Option.map_some]
  have hMonth : ∀ rest tm, readDirective 0x62 (monthNames.getD date.mon [] ++ rest) tm =
      some ({ tm with mon := date.mon.val }, rest) := by
    intro rest tm
    rw [readDirective, if_neg (by decide), if_pos rfl, readName_monthNames, Option.map_some]
  have hMday : ∀ rest tm, readDirective 0x64 (digits 2 date.mday ++ rest) tm =
      some ({ tm with mday := date.mday }, rest) := by
    intro rest tm
    rw [readDirective, if_neg (by decide), if_neg (by decide), if_pos rfl,
      readNumber_digits (by decide) date.mday_pos date.mday_le_31
        (Nat.lt_of_le_of_lt date.mday_le_31 (by decide)), Option.map_some]
  have hYear : ∀ rest tm, readDirective 0x59 (digits 4 date.year ++ rest) tm =
      some ({ tm with year := (date.year : Int) - 1900 }, rest) := by
    intro rest tm
    rw [readDirective, if_neg (by decide), if_neg (by decide), if_neg (by decide), if_pos rfl,
      readNumber_digits (by decide) (Nat.zero_le _) date.year_le
        (Nat.lt_of_le_of_lt date.year_le (by decide)), Option.map_some]
  have hFormat : ascii "%a, %d %b %Y %T" = [0x25, 0x61, 0x2C, 0x20, 0x25, 0x64, 0x20, 0x25, 0x62,
      0x20, 0x25, 0x59, 0x20, 0x25, 0x54] := by decide
  have hComma : ∀ format text tm, readFormat (0x2C :: format) (ascii ", " ++ text) tm =
      readFormat format (ascii " " ++ text) tm := fun _ _ _ => rfl
  rw [hFormat, HttpDate.write, readFormat, hDay, Option.bind_some, hComma,
    readFormat_space (head_digits _ _ _), readFormat, hMday, Option.bind_some,
    readFormat_space (head_monthName _ _), readFormat, hMonth, Option.bind_some,
    readFormat_space (head_digits _ _ _), readFormat, hYear, Option.bind_some,
    readFormat_space (head_digits _ _ _), readFormat, readDirective_time, Option.bind_some, readFormat]
  rfl

/-- The time library of the examples is as documented in every time zone. -/
theorem localTime_documented (zone : Tm → Int) : (localTime zone).Documented zone where
  strptime := readFormat_date
  mktime := by
    intro date tm
    have hYear : (date.year : Int) - 1900 + 1900 = date.year := by omega
    simp only [localTime, Tm.setDate, hYear, Int.toNat_natCast, secondsSinceEpoch_eq]

namespace StreamingFileHandler

/-- The response starts with a status code, whatever follows. -/
def Answers (fs : FileSystem) (handler : StreamingFileHandler)
    (allocator : Allocator handler.readBufferSize) (code : Int16) : Prop :=
  ∃ final enough, final.emissions.head? = some (.headers code []) ∧
    ∀ fuel, enough ≤ fuel → onEOM fs handler allocator fuel = .ok (some final)

/-- A request is answered with one status code. -/
theorem Answers.unique {fs : FileSystem} {handler : StreamingFileHandler}
    {allocator : Allocator handler.readBufferSize} {code other : Int16}
    (first : Answers fs handler allocator code) (second : Answers fs handler allocator other) :
    code = other := by
  obtain ⟨final, enough, hHead, hFinal⟩ := first
  obtain ⟨last, plenty, hOther, hLast⟩ := second
  have hSame := (hFinal _ (Nat.le_max_left enough plenty)).symm.trans
    (hLast _ (Nat.le_max_right enough plenty))
  obtain rfl : final = last := by simpa using hSame
  rw [hHead] at hOther
  simpa using hOther

/-- A regular file that can be read is answered by the date alone. -/
theorem onEOM_answers {fs : FileSystem} {handler : StreamingFileHandler}
    (allocator : Allocator handler.readBufferSize) (hBase : handler.base = .create)
    (hRegular : fs.isRegularFile handler.path = .ok true) {fin : InputStream}
    (hOpen : fs.ifstream handler.path = some fin) (hReads : fin.ReachesEnd handler.readBufferSize) :
    Answers fs handler allocator (if notModified fs handler then 304 else 200) := by
  cases hModified : notModified fs handler with
  | true =>
      refine ⟨_, 0, congrArg List.head? (emissions_response 304 []), ?_⟩
      intro fuel _
      simp only [onEOM, hRegular, hModified, hBase]
      rfl
  | false =>
      obtain ⟨count, hEnd⟩ := hReads
      obtain ⟨bodies, hBodies⟩ := readLoop_completes allocator hEnd 0
        (handler.base.sendResponseHeaders (HTTPResponse.ofStatus 200))
      refine ⟨_, count + 1, congrArg List.head? (emissions_response 200 bodies), ?_⟩
      intro fuel hFuel
      rw [onEOM_streams allocator hRegular hModified hOpen, hBodies fuel hFuel, hBase]
      rfl

theorem cString_write (date : HttpDate) : cString date.write = date.write := by
  rw [cString, List.takeWhile_eq_self_iff]
  intro c hMem
  simpa using date.write_ne_zero c hMem

/-- The header is turned into its instant, moved by the zone of the process. -/
theorem onRequestReceived_ifModifiedSince {time : TimeLibrary} {zone : Tm → Int}
    (hTime : time.Documented zone) {request : HTTPRequest} {date : HttpDate}
    (hHeader : request.getHeader .ifModifiedSince = some date.write) (library : PathLibrary)
    (expireTime : Tm) (handler : StreamingFileHandler) :
    (onRequestReceived library time expireTime handler request).ifModifiedSince =
      date.instant - zone (expireTime.setDate date) := by
  simp only [onRequestReceived, hHeader, cString_write, hTime.strptime, hTime.mktime]

/-- The file is not sent exactly if the date of the request is positive and the file
is not newer. -/
theorem notModified_iff {fs : FileSystem} {handler : StreamingFileHandler} {modified : Int}
    (hTime : fs.lastWriteTime handler.path = some modified) :
    notModified fs handler = true ↔
      0 < handler.ifModifiedSince ∧ modified ≤ handler.ifModifiedSince := by
  simp [notModified, hTime]

/-- The answer is the right one exactly if the offset of the process's time zone
does not move the date past the file's, nor to the epoch or before. -/
theorem onEOM_answers_iff {time : TimeLibrary} {zone : Tm → Int} (hTime : time.Documented zone)
    {date : HttpDate} {request : HTTPRequest}
    (hHeader : request.getHeader .ifModifiedSince = some date.write) (library : PathLibrary)
    (expireTime : Tm) (basePath rawPath : Bytes) (readBufferSize : Nat)
    {handler : StreamingFileHandler}
    (hHandler : handler =
      received library time expireTime basePath readBufferSize rawPath request)
    {fs : FileSystem} (hRegular : fs.isRegularFile handler.path = .ok true) {modified : Int}
    (hModified : fs.lastWriteTime handler.path = some modified) {fin : InputStream}
    (hOpen : fs.ifstream handler.path = some fin) (hReads : fin.ReachesEnd handler.readBufferSize)
    (allocator : Allocator handler.readBufferSize) :
    Answers fs handler allocator (if modified ≤ date.instant then 304 else 200) ↔
      modified ≤ date.instant ∧ zone (expireTime.setDate date) < date.instant ∧
          modified + zone (expireTime.setDate date) ≤ date.instant ∨
        date.instant < modified ∧ (date.instant ≤ zone (expireTime.setDate date) ∨
          date.instant < modified + zone (expireTime.setDate date)) := by
  have hBase : handler.base = .create := hHandler ▸ received_base ..
  have hSince : handler.ifModifiedSince = date.instant - zone (expireTime.setDate date) :=
    hHandler ▸ onRequestReceived_ifModifiedSince hTime hHeader library expireTime _
  have hAnswer := onEOM_answers allocator hBase hRegular hOpen hReads
  have hCode : Answers fs handler allocator (if modified ≤ date.instant then 304 else 200) ↔
      (notModified fs handler = true ↔ modified ≤ date.instant) := by
    constructor
    · intro hExpected
      have hSame := hAnswer.unique hExpected
      by_cases hOld : modified ≤ date.instant <;>
        by_cases hFlag : notModified fs handler = true <;> simp_all
    · intro hSame
      simpa only [hSame] using hAnswer
  rw [hCode, notModified_iff hModified, hSince]
  omega

/-- Sun, 06 Nov 1994 08:49:37 GMT -/
def sampleDate : HttpDate where
  year := 1994
  mon := 10
  mday := 6
  hour := 8
  min := 49
  sec := 37
  mday_pos := by decide
  mday_le := by decide
  hour_lt := by decide
  min_lt := by decide
  sec_le := by decide
  wday := 0
  year_le := by decide

theorem sampleDate_instant : sampleDate.instant = 784111777 := by
  rw [← secondsSinceEpoch_eq]
  decide

def sampleRequest : HTTPRequest :=
  ⟨⟨some .get, ascii "/", [(.ifModifiedSince, sampleDate.write)]⟩, .create⟩

/-- A handler of a process in a zone, after it has received the sample request. -/
def sampleHandler (zone : Int) : StreamingFileHandler :=
  received posix (localTime fun _ => zone) ⟨0, 0, 0, 0, 0, 0, 0, 0, 0⟩ (ascii "www") 4 (ascii "a")
    sampleRequest

/-- A file system with one file that was last written at some time. -/
def modifiedAt (modified : Int) : FileSystem :=
  ⟨fun _ => .ok true, fun _ => some modified, fun _ => some (.openedOn (ascii "hello") none)⟩

/-- A file of exactly the date that the request asks for, in a zone without an
offset. -/
theorem onEOM_answers_example :
    Answers (modifiedAt 784111777) (sampleHandler 0) (constantAllocator (ascii "full") (by decide))
      (if (784111777 : Int) ≤ sampleDate.instant then 304 else 200) := by
  have hHandler : sampleHandler 0 = received posix _ _ _ _ _ _ := rfl
  refine (onEOM_answers_iff (localTime_documented _) (by decide) _ _ _ _ _ hHandler rfl rfl rfl
    ((InputStream.reachesEnd_openedOn_iff (by decide) _ _).mpr (by simp)) _).mpr (Or.inl ?_)
  rw [sampleDate_instant]
  decide

/-- Five hours west of GMT, a file that is an hour newer than the client's copy
is reported as unmodified. -/
theorem onEOM_hides_change :
    sampleDate.instant < 784115377 ∧
      Answers (modifiedAt 784115377) (sampleHandler (-18000))
        (constantAllocator (ascii "full") (by decide)) 304 ∧
      ¬Answers (modifiedAt 784115377) (sampleHandler (-18000))
        (constantAllocator (ascii "full") (by decide))
        (if (784115377 : Int) ≤ sampleDate.instant then 304 else 200) := by
  have hSince : (sampleHandler (-18000)).ifModifiedSince = 784111777 - -18000 := by
    rw [← sampleDate_instant]
    exact onRequestReceived_ifModifiedSince (localTime_documented _) (by decide) _ _ _
  have hOld : notModified (modifiedAt 784115377) (sampleHandler (-18000)) = true := by
    rw [notModified_iff rfl, hSince]
    decide
  have hAnswer : Answers (modifiedAt 784115377) (sampleHandler (-18000))
      (constantAllocator (ascii "full") (by decide)) 304 := by
    have hBase : (sampleHandler (-18000)).base = .create := received_base ..
    have hReads : (InputStream.openedOn (ascii "hello") none).ReachesEnd 4 :=
      (InputStream.reachesEnd_openedOn_iff (by decide) _ _).mpr (by simp)
    have hEither : Answers (modifiedAt 784115377) (sampleHandler (-18000))
        (constantAllocator (ascii "full") (by decide))
        (if notModified (modifiedAt 784115377) (sampleHandler (-18000)) then 304 else 200) :=
      onEOM_answers _ hBase rfl rfl hReads
    rwa [hOld, if_pos rfl] at hEither
  have hNewer : sampleDate.instant < 784115377 := by
    rw [sampleDate_instant]
    decide
  refine ⟨hNewer, hAnswer, ?_⟩
  intro hExpected
  rw [sampleDate_instant] at hExpected
  exact absurd (hAnswer.unique hExpected) (by decide)

end StreamingFileHandler

end Nozomi
