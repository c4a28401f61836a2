import Mathlib.Data.List.AList
import Nozomi.Message.HTTP

/-! The parser of posted forms, and its four accessors. -/
namespace Nozomi

open Text

/-- The values of each key, in the order in which they were added. -/
abbrev FormData := AList fun _ : Bytes => List IOBuf

/-- `ret[key].push_back(value)`: a new key starts with no values. -/
def FormData.pushBack (data : FormData) (key : Bytes) (value : IOBuf) : FormData :=
  data.insert key ((data.lookup key).getD [] ++ [value])

structure PostParser where
  originalBody : IOBuf
  parsedData : FormData

namespace PostParser

/-- `split<false>("=", ...)`, or the whole piece as key if there is no `=`. -/
def splitKeyValue (keyValueString : Bytes) : Bytes × Bytes :=
  if equals ∈ keyValueString then
    (keyValueString.takeWhile (· ≠ equals), (keyValueString.dropWhile (· ≠ equals)).drop 1)
  else (keyValueString, [])

/-- A malformed escape leaves the text as it is. -/
def unescape (uri : UriLibrary) (text : Bytes) : Bytes := (uri.uriUnescape .query text).getD text

def parseUrlEncoded (uri : UriLibrary) (body : IOBuf) : Throws FormData := do
  let asString ← toString body
  let kvps := ((asString.splitOn ampersand).filter (· ≠ [])).map fun keyValueString =>
    let kvp := splitKeyValue keyValueString
    (unescape uri kvp.1, unescape uri kvp.2)
  return kvps.foldl (fun ret kvp => FormData.pushBack ret kvp.1 (IOBuf.copyBuffer kvp.2)) ∅

/-- Not implemented in the source. -/
def parseFormData (_body : IOBuf) : Throws FormData := .ok ∅

def parseRequest (uri : UriLibrary) (request : HTTPRequest) (body : IOBuf) : Throws FormData :=
  match request.getHeader .contentType with
  | none => .ok ∅
  | some contentType =>
      if contentType = ascii "application/x-www-form-urlencoded" then parseUrlEncoded uri body
      else if contentType = ascii "multipart/form-data" then parseFormData body
      else .ok ∅

def create (uri : UriLibrary) (request : HTTPRequest) : Throws PostParser := do
  let originalBody := request.getBodyAsBytes
  let parsedData ← parseRequest uri request originalBody
  return ⟨originalBody, parsedData⟩

/-- `front()` of an empty vector is undefined, which is `none` here. -/
def getString (parser : PostParser) (key : Bytes) : Option (Throws (Option Bytes)) :=
  match parser.parsedData.lookup key with
  | none => some (.ok none)
  | some values => values.head?.map fun front => (toString front).map some

def getStringList (parser : PostParser) (key : Bytes) : Throws (Option (List Bytes)) :=
  match parser.parsedData.lookup key with
  | none => .ok none
  | some values => (values.mapM toString).map some

/-- `front()` of an empty vector is undefined, which is `none` here. -/
def getBinary (parser : PostParser) (key : Bytes) : Option (Option IOBuf) :=
  match parser.parsedData.lookup key with
  | none => some none
  | some values => values.head?.map fun front => some front.clone

def getBinaryList (parser : PostParser) (key : Bytes) : Option (List IOBuf) :=
  match parser.parsedData.lookup key with
  | none => none
  | some values => some (values.map IOBuf.clone)

end PostParser

end Nozomi
