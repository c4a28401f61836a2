import Nozomi.Serving.SimpleServer

/-! The settings of a server. A `Config` can only be built from settings that pass every
check, and carries what the checks have established. -/
namespace Nozomi

open Text

/-- Questions about directories. An error is what the exception tells, and every exception
is derived from `std::exception`. -/
structure Directories where
  canonical : Bytes → Except Bytes Bytes
  isSymlink : Bytes → Except Bytes Bool
  readSymlink : Bytes → Except Bytes Bytes
  isDirectory : Bytes → Except Bytes Bool

/-- A canonical path is its own canonical path and no link. -/
structure Directories.Documented (directories : Directories) : Prop where
  canonical_canonical : ∀ path full, directories.canonical path = .ok full →
    directories.canonical full = .ok full
  canonical_isSymlink : ∀ path full, directories.canonical path = .ok full →
    directories.isSymlink full = .ok false

inductive Protocol where
  | http | spdy | http2
  deriving DecidableEq

structure IPConfig (α : Type) where
  address : α
  protocol : Protocol
  deriving DecidableEq

/-- What a constructor is given. -/
structure Settings (Address : Type) where
  httpAddresses : List Address
  workerThreads : UInt64
  publicDir : Option Bytes := none
  requestTimeout : Int64 := 30000
  fileReaderBufferSize : UInt64 := 4096

/-- No public directory stands for an empty `publicDir_` without the flag. -/
structure Config (Address : Type) extends Settings Address where
  addresses : httpAddresses ≠ []
  threads : workerThreads ≠ 0
  timeout : 0 < requestTimeout
  bufferSize : fileReaderBufferSize ≠ 0 ∧ fileReaderBufferSize ≤ 1024 * 1024 * 1024

namespace Config

variable {Address α : Type} (directories : Directories)

def setHTTPAddresses (httpAddresses : List Address) :
    Except Bytes { httpAddresses : List Address // httpAddresses ≠ [] } :=
  if h : httpAddresses = [] then .error (ascii "At least one address must be provided")
  else .ok ⟨httpAddresses, h⟩

def setWorkerThreads (workerThreads : UInt64) : Except Bytes { workerThreads : UInt64 // workerThreads ≠ 0 } :=
  if h : workerThreads = 0 then
    .error (ascii s!"Number of threads ({workerThreads}) must be greater than zero")
  else .ok ⟨workerThreads, h⟩

def setRequestTimeout (requestTimeout : Int64) :
    Except Bytes { requestTimeout : Int64 // 0 < requestTimeout } :=
  if h : requestTimeout ≤ 0 then
    .error (ascii s!"Timeout ({requestTimeout}) must be greater than zero milliseconds")
  else .ok ⟨requestTimeout, Int64.not_le.mp h⟩

/-- A size of one gigabyte passes, other than the message says. -/
def setFileReaderBufferSize (size : UInt64) :
    Except Bytes { size : UInt64 // size ≠ 0 ∧ size ≤ 1024 * 1024 * 1024 } :=
  if h : size = 0 ∨ 1024 * 1024 * 1024 < size then
    .error (ascii s!"The file reader buffer size ({size}) must be > 0 and less than 1GB")
  else .ok ⟨size, fun hZero => h (.inl hZero), UInt64.not_lt.mp fun hLess => h (.inr hLess)⟩

/-- The `try` block of `setPublicDir`. -/
def publicDirectory (path : Bytes) : Except Bytes Bytes := do
  let fullPath ← directories.canonical path
  let isLink ← directories.isSymlink fullPath
  let dangling ← if isLink then (! ·) <$> (directories.readSymlink fullPath >>= directories.isDirectory)
    else .ok false
  let notDirectory ← if dangling then .ok true else (! ·) <$> directories.isDirectory fullPath
  if notDirectory then .error (ascii "Path must be a directory")
  else .ok fullPath

def setPublicDir : Option Bytes → Except Bytes (Option Bytes)
  | none => .ok none
  | some path =>
      match publicDirectory directories path with
      | .ok fullPath => .ok (some fullPath)
      | .error what =>
          .error (ascii "Could not use public directory " ++ path ++ ascii ": " ++ what)

/-- The second constructor. An error is the text of an `std::invalid_argument`. -/
def create (settings : Settings Address) : Except Bytes (Config Address) := do
  let httpAddresses ← setHTTPAddresses settings.httpAddresses
  let workerThreads ← setWorkerThreads settings.workerThreads
  let publicDir ← setPublicDir directories settings.publicDir
  let requestTimeout ← setRequestTimeout settings.requestTimeout
  let size ← setFileReaderBufferSize settings.fileReaderBufferSize
  return ⟨⟨httpAddresses, workerThreads, publicDir, requestTimeout, size⟩,
    httpAddresses.2, workerThreads.2, requestTimeout.2, size.2⟩

/-- The first constructor, which makes the addresses from hosts and ports. A host that
cannot be resolved is a `std::system_error`. -/
def createFromHosts (socketAddress : Bytes → UInt16 → Except Bytes α)
    (settings : Settings (Bytes × UInt16 × Protocol)) : Except Bytes (Config (IPConfig α)) := do
  let newHTTPAddresses ← settings.httpAddresses.mapM fun (host, port, protocol) => do
    return (⟨← socketAddress host port, protocol⟩ : IPConfig α)
  create directories { settings with httpAddresses := newHTTPAddresses }

variable {directories} {settings : Settings Address}

/-- What a check has found. -/
def fault {β : Type} : Except Bytes β → List Bytes
  | .ok _ => []
  | .error what => [what]

/-- Two checks in a row are passed if the first one is, and then the second one. -/
theorem bind_eq_ok_iff {β γ : Type} (check : Except Bytes β) (next : β → Except Bytes γ) (result : γ) :
    check >>= next = .ok result ↔ ∃ value, check = .ok value ∧ next value = .ok result := by
  cases check <;> simp [Bind.bind, Except.bind]

theorem setHTTPAddresses_eq_ok {httpAddresses : List Address} (checked) :
    setHTTPAddresses httpAddresses = .ok checked ↔ checked.1 = httpAddresses := by
  rw [setHTTPAddresses]
  split
  · rename_i hNil
    simpa [hNil] using checked.2
  · simp [Subtype.ext_iff, eq_comm]

theorem setWorkerThreads_eq_ok {workerThreads : UInt64} (checked) :
    setWorkerThreads workerThreads = .ok checked ↔ checked.1 = workerThreads := by
  rw [setWorkerThreads]
  split
  · rename_i hZero
    simpa [hZero] using checked.2
  · simp [Subtype.ext_iff, eq_comm]

theorem setRequestTimeout_eq_ok {requestTimeout : Int64} (checked) :
    setRequestTimeout requestTimeout = .ok checked ↔ checked.1 = requestTimeout := by
  rw [setRequestTimeout]
  split
  · rename_i hLow
    simp only [reduceCtorEq, false_iff]
    rintro rfl
    exact Int64.not_le.mpr checked.2 hLow
  · simp [Subtype.ext_iff, eq_comm]

theorem setFileReaderBufferSize_eq_ok {size : UInt64} (checked) :
    setFileReaderBufferSize size = .ok checked ↔ checked.1 = size := by
  rw [setFileReaderBufferSize]
  split
  · rename_i hBad
    simp only [reduceCtorEq, false_iff]
    rintro rfl
    rcases hBad with hZero | hLess
    · exact checked.2.1 hZero
    · exact UInt64.not_lt.mpr checked.2.2 hLess
  · simp [Subtype.ext_iff, eq_comm]

/-- Settings without a fault are taken over, with the canonical path of the directory
in the place of the path that was given. -/
theorem create_eq_ok_iff (config : Config Address) :
    create directories settings = .ok config ↔
      setPublicDir directories settings.publicDir = .ok config.publicDir ∧
        config.toSettings = { settings with publicDir := config.publicDir } := by
  obtain ⟨httpAddresses, workerThreads, publicDir, requestTimeout, size⟩ := settings
  constructor
  · intro h
    obtain ⟨addresses, hAddresses, h⟩ := (bind_eq_ok_iff _ _ _).mp h
    obtain ⟨threads, hThreads, h⟩ := (bind_eq_ok_iff _ _ _).mp h
    obtain ⟨directory, hDirectory, h⟩ := (bind_eq_ok_iff _ _ _).mp h
    obtain ⟨timeout, hTimeout, h⟩ := (bind_eq_ok_iff _ _ _).mp h
    obtain ⟨bufferSize, hSize, h⟩ := (bind_eq_ok_iff _ _ _).mp h
    obtain rfl := Except.ok.inj h
    obtain rfl := (setHTTPAddresses_eq_ok addresses).mp hAddresses
    obtain rfl := (setWorkerThreads_eq_ok threads).mp hThreads
    obtain rfl := (setRequestTimeout_eq_ok timeout).mp hTimeout
    obtain rfl := (setFileReaderBufferSize_eq_ok bufferSize).mp hSize
    exact ⟨hDirectory, rfl⟩
  · intro ⟨hDirectory, hSettings⟩
    obtain ⟨⟨_, _, _, _, _⟩, hAddresses, hThreads, hTimeout, hSize⟩ := config
    obtain ⟨rfl, rfl, -, rfl, rfl⟩ := Settings.mk.inj hSettings
    rw [create, (setHTTPAddresses_eq_ok ⟨_, hAddresses⟩).mpr rfl,
      (setWorkerThreads_eq_ok ⟨_, hThreads⟩).mpr rfl, hDirectory,
      (setRequestTimeout_eq_ok ⟨_, hTimeout⟩).mpr rfl,
      (setFileReaderBufferSize_eq_ok ⟨_, hSize⟩).mpr rfl]
    rfl

end Config

/-- A factory for the requests of a server with this configuration. -/
def HTTPHandlerFactory.create {Address : Type} (config : Config Address) (router : Router) : HTTPHandlerFactory :=
  ⟨config.requestTimeout.toInt.toNat, router⟩

namespace SimpleServer

/-- The settings of the example program. -/
def settings : Settings (Bytes × UInt16 × Protocol) where
  httpAddresses := [(ascii "0.0.0.0", 8080, .http)]
  workerThreads := 2

/-- The program gets past its configuration, which gives its factory the timeout. -/
theorem create_settings {α ρ : Type} (directories : Directories) (library : RegexLibrary ρ) (uri : UriLibrary)
    (conversions : Conversions) (made : List (Route ρ)) {socketAddress : Bytes → UInt16 → Except Bytes α}
    {address : α} (hAddress : socketAddress (ascii "0.0.0.0") 8080 = .ok address) :
    ∃ config, Config.createFromHosts directories socketAddress settings = .ok config ∧
      HTTPHandlerFactory.create config (factory library uri conversions made).router =
        factory library uri conversions made := by
  have hThreads : (2 : UInt64) ≠ 0 := by decide
  have hTimeout : (0 : Int64) < 30000 := by decide
  have hSize : (4096 : UInt64) ≠ 0 ∧ (4096 : UInt64) ≤ 1024 * 1024 * 1024 := by decide
  refine ⟨⟨⟨[⟨address, .http⟩], 2, none, 30000, 4096⟩, List.cons_ne_nil _ _, hThreads, hTimeout,
    hSize⟩, ?_, rfl⟩
  simp only [Config.createFromHosts, settings, List.mapM_cons, hAddress]
  rfl

end SimpleServer

end Nozomi
