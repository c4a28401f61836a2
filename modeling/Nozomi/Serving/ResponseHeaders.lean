import Mathlib.Data.List.AList
import Nozomi.Serving.Service

/-! The headers that a response is made with. The constructors take them from a hash map,
in the order of its iteration, and a header replaces an earlier one of the same name. -/
namespace Nozomi

open Text

/-- The headers of a message of proxygen. They are set under a key, which is a name or its
code, and are listed by `forEach`. Names are the same if they differ in case at most. -/
structure HeadersLibrary (η κ : Type) where
  empty : η
  set : η → κ → Bytes → η
  forEach : η → HTTPHeaders
  code : κ → HTTPHeaderCode
  same : HTTPHeaderCode → HTTPHeaderCode → Bool

namespace HeadersLibrary

variable {η κ : Type} (library : HeadersLibrary η κ)

/-- The values under a name, in their order. -/
def underName (headers : HTTPHeaders) (name : HTTPHeaderCode) : List Bytes :=
  (headers.filter fun header => library.same header.1 name).map (·.2)

/-- What proxygen documents: `set` removes all that is there under the name, and adds
the new value. -/
structure Documented : Prop where
  same : Equivalence fun name other => library.same name other = true
  empty : library.forEach library.empty = []
  set : ∀ headers key value name, library.underName (library.forEach (library.set headers key value)) name =
    if library.same (library.code key) name then [value] else library.underName (library.forEach headers) name

end HeadersLibrary

/-- Letters in lower case. -/
def lowercase (text : Bytes) : Bytes := text.map fun c => if 0x41 ≤ c ∧ c ≤ 0x5A then c + 0x20 else c

namespace HTTPHeaderCode

/-- A name as it is compared, without regard to case. -/
def key : HTTPHeaderCode → HTTPHeaderCode
  | .other name => .other (lowercase name)
  | code => code

/-- The code of a name. -/
def hash (name : Bytes) : HTTPHeaderCode :=
  if lowercase name = ascii "content-type" then .contentType
  else if lowercase name = ascii "if-modified-since" then .ifModifiedSince
  else .other name

end HTTPHeaderCode

/-- Headers in a list, set by their names. -/
def headersLibrary : HeadersLibrary HTTPHeaders Bytes where
  empty := []
  set headers key value :=
    headers.filter (fun header => header.1.key ≠ (HTTPHeaderCode.hash key).key) ++ [(.hash key, value)]
  forEach headers := headers
  code := .hash
  same name other := name.key = other.key

theorem headersLibrary_documented : headersLibrary.Documented where
  same := by
    simp only [headersLibrary, decide_eq_true_eq]
    exact ⟨fun _ => rfl, Eq.symm, Eq.trans⟩
  empty := rfl
  set headers key value name := by
    by_cases hSame : (HTTPHeaderCode.hash key).key = name.key
    · have hNone : headers.filter (fun header => decide (header.1.key = name.key) &&
          !decide (header.1.key = (HTTPHeaderCode.hash key).key)) = [] := by
        rw [List.filter_eq_nil_iff]
        intro header _
        simp [hSame]
      simp [headersLibrary, HeadersLibrary.underName, List.filter_append, List.filter_filter, hSame]
    · have hOther : headers.filter (fun header => decide (header.1.key = name.key) &&
          !decide (header.1.key = (HTTPHeaderCode.hash key).key)) =
            headers.filter fun header => header.1.key = name.key := by
        apply List.filter_congr
        intro header _
        by_cases hName : header.1.key = name.key
        · simp [hName, Ne.symm hSame]
        · simp [hName]
      simp [headersLibrary, HeadersLibrary.underName, List.filter_append, List.filter_filter, hSame, hOther]

namespace HTTPResponse

variable {η κ : Type} (library : HeadersLibrary η κ)

/-- The loop over the headers. -/
def setHeaders (headers : η) : List (Sigma fun _ : κ => Bytes) → η
  | [] => headers
  | kv :: rest => setHeaders (library.set headers kv.1 kv.2) rest

/-- A constructor with headers. They differ in how they make the body. -/
def ofBuffer (statusCode : Int16) (body : IOBuf) (headers : AList fun _ : κ => Bytes) : HTTPResponse :=
  ⟨statusCode, library.forEach (setHeaders library library.empty headers.entries), body⟩

/-- The calls in which a handler of either kind sends the head of a response. -/
def headCalls (streaming : Bool) (response : HTTPResponse) : List BuilderCall :=
  if streaming then (Task.sendResponseHeaders response).calls else HTTPHandler.sendResponse response

/-- The headers that calls pass to the response builder. -/
def headersOf (calls : List BuilderCall) : HTTPHeaders :=
  calls.filterMap fun
    | .header code value => some (code, value)
    | _ => none

/-- What the response builder is given under a name of the response. -/
def passed (streaming : Bool) (response : HTTPResponse) (name : HTTPHeaderCode) : List Bytes :=
  library.underName (headersOf (headCalls streaming response)) name

/-- Both kinds of handlers pass on all headers of a response, in their order, after
the status and before the body. -/
theorem headersOf_headCalls (streaming : Bool) (response : HTTPResponse) :
    headersOf (headCalls streaming response) = response.headers := by
  have hEach : ∀ headers : HTTPHeaders,
      headersOf (headers.map fun header => .header header.1 header.2) = headers := by
    intro headers
    rw [headersOf, List.filterMap_map]
    exact List.filterMap_some
  have hCalls : ∀ last : List BuilderCall, headersOf last = [] →
      headersOf (.status response.statusCode ::
        response.headers.map (fun header => .header header.1 header.2) ++ last) = response.headers := by
    intro last hLast
    rw [List.cons_append]
    refine List.filterMap_append.trans ?_
    exact (congrArg₂ (· ++ ·) (hEach response.headers) hLast).trans (List.append_nil _)
  cases streaming with
  | false => exact hCalls _ rfl
  | true =>
      rw [headCalls, if_pos rfl, Task.calls, List.append_assoc]
      apply hCalls
      split <;> rfl

variable {library} {statusCode : Int16} {body : IOBuf} {streaming : Bool}

/-- The last entry under a name is the one that stays. -/
theorem underName_setHeaders (hLibrary : library.Documented) (headers : η)
    (entries : List (Sigma fun _ : κ => Bytes)) (name : HTTPHeaderCode) :
    library.underName (library.forEach (setHeaders library headers entries)) name =
      match entries.reverse.find? fun kv => library.same (library.code kv.1) name with
      | some kv => [kv.2]
      | none => library.underName (library.forEach headers) name := by
  induction entries generalizing headers with
  | nil => rfl
  | cons kv rest ih =>
      rw [setHeaders, ih, hLibrary.set, List.reverse_cons, List.find?_append]
      cases rest.reverse.find? (fun kv => library.same (library.code kv.1) name) with
      | some later => rfl
      | none => by_cases hSame : library.same (library.code kv.1) name = true <;> simp [hSame]

/-- Under each name, the builder is given what was set last under a name that is the
same. -/
theorem passed_ofBuffer (hLibrary : library.Documented) (headers : AList fun _ : κ => Bytes)
    (name : HTTPHeaderCode) : passed library streaming (ofBuffer library statusCode body headers) name =
      ((headers.entries.reverse.find? fun kv => library.same (library.code kv.1) name).map (·.2)).toList := by
  rw [passed, headersOf_headCalls]
  refine (underName_setHeaders hLibrary library.empty headers.entries name).trans ?_
  rw [hLibrary.empty]
  cases headers.entries.reverse.find? fun kv => library.same (library.code kv.1) name <;> rfl

/-- Any entry can come last in the iteration. -/
theorem exists_last [DecidableEq κ] (hLibrary : library.Documented) (headers : AList fun _ : κ => Bytes)
    {kv : Sigma fun _ : κ => Bytes} (hMem : kv ∈ headers.entries) (statusCode : Int16) (body : IOBuf)
    (streaming : Bool) :
    ∃ order : AList fun _ : κ => Bytes, order.entries.Perm headers.entries ∧
      ∀ name, library.same (library.code kv.1) name = true →
        passed library streaming (ofBuffer library statusCode body order) name = [kv.2] := by
  have hPerm : (headers.entries.erase kv ++ [kv]).Perm headers.entries :=
    (List.perm_append_singleton _ _).trans (List.perm_cons_erase hMem).symm
  refine ⟨⟨_, (List.perm_nodupKeys hPerm).mpr headers.nodupKeys⟩, hPerm, ?_⟩
  intro name hName
  rw [passed_ofBuffer hLibrary]
  simp [hName]

/-- What the response builder is given does not depend on the order of the hash map if and
only if headers whose names differ in case alone have the same value. -/
theorem headers_determined_iff [DecidableEq κ] (hLibrary : library.Documented) (statusCode : Int16)
    (body : IOBuf) (streaming : Bool) (headers : AList fun _ : κ => Bytes) :
    (∀ order : AList fun _ : κ => Bytes, order.entries.Perm headers.entries → ∀ name,
      passed library streaming (ofBuffer library statusCode body order) name =
        passed library streaming (ofBuffer library statusCode body headers) name) ↔
    ∀ first ∈ headers.entries, ∀ second ∈ headers.entries,
      library.same (library.code first.1) (library.code second.1) = true → first.2 = second.2 := by
  constructor
  · intro hSame first hFirst second hSecond hKey
    obtain ⟨order, hOrder, hLast⟩ := exists_last hLibrary headers hFirst statusCode body streaming
    obtain ⟨other, hOther, hOtherLast⟩ := exists_last hLibrary headers hSecond statusCode body streaming
    have hPassed : [first.2] = [second.2] := by
      rw [← hLast (library.code second.1) hKey, ← hOtherLast (library.code second.1) (hLibrary.same.refl _),
        hSame order hOrder, hSame other hOther]
    exact List.singleton_inj.mp hPassed
  · intro hAgree order hOrder name
    rw [passed_ofBuffer hLibrary, passed_ofBuffer hLibrary]
    have hMem : ∀ kv, kv ∈ order.entries.reverse ↔ kv ∈ headers.entries.reverse := by
      intro kv
      rw [List.mem_reverse, List.mem_reverse]
      exact hOrder.mem_iff
    cases hFound : order.entries.reverse.find? (fun kv => library.same (library.code kv.1) name) with
    | none =>
        have hNone : headers.entries.reverse.find? (fun kv => library.same (library.code kv.1) name) = none := by
          rw [List.find?_eq_none] at hFound ⊢
          intro kv hHere
          exact hFound kv ((hMem kv).mpr hHere)
        rw [hNone]
    | some kv =>
        have hKey : library.same (library.code kv.1) name = true := by simpa using List.find?_some hFound
        have hHere := (hMem kv).mp (List.mem_of_find?_eq_some hFound)
        have hSome : (headers.entries.reverse.find? fun kv => library.same (library.code kv.1) name).isSome := by
          rw [List.find?_isSome]
          exact ⟨kv, hHere, hKey⟩
        obtain ⟨last, hLast⟩ := Option.isSome_iff_exists.mp hSome
        have hLastKey : library.same (library.code last.1) name = true := by simpa using List.find?_some hLast
        have hValue : kv.2 = last.2 := by
          apply hAgree kv (List.mem_reverse.mp hHere) last (List.mem_reverse.mp (List.mem_of_find?_eq_some hLast))
          exact hLibrary.same.trans hKey (hLibrary.same.symm hLastKey)
        rw [hLast, Option.map_some, Option.map_some, hValue]

/-- Two headers that differ in case alone, with different values: the order of the
map shows. -/
theorem headers_determined_example :
    let headers := (AList.singleton (ascii "vary") (ascii "Cookie")).insert (ascii "Vary") (ascii "Accept")
    ¬∀ order : AList fun _ : Bytes => Bytes, order.entries.Perm headers.entries → ∀ name,
      passed headersLibrary false (ofBuffer headersLibrary 200 .create order) name =
        passed headersLibrary false (ofBuffer headersLibrary 200 .create headers) name := by
  intro headers hSame
  have hAgree := (headers_determined_iff headersLibrary_documented 200 .create false headers).mp hSame
    ⟨ascii "Vary", ascii "Accept"⟩ (by decide) ⟨ascii "vary", ascii "Cookie"⟩ (by decide)
    (by decide)
  exact absurd hAgree (by decide)

end HTTPResponse

end Nozomi
