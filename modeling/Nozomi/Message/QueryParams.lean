import Mathlib.Data.List.AList
import Nozomi.Message.HTTP

/-! Query parameters, which are held undecoded and looked up by decoded name. A
name that occurs as it stands is looked up directly, before any decoding. -/
namespace Nozomi

open Text

/-- The pairs of a query as they were sent, in the order of their iteration. -/
abbrev QueryParams := AList fun _ : Bytes => Bytes

namespace QueryParams

section Lookup

variable (uri : UriLibrary) (beforeError : Bytes → Bytes)

/-- A value as it is returned by the direct lookup, which swallows an error and
returns what was decoded before it. -/
def directText (value : Bytes) : Bytes :=
  (uri.uriUnescape .query value).getD (beforeError value)

def getDecodedQueryParam (params : QueryParams) (name : Bytes) : Bytes :=
  directText uri beforeError ((params.lookup name).getD [])

/-- The loop over all pairs, which skips a pair that does not decode. -/
def scan (param : Bytes) : List (Sigma fun _ : Bytes => Bytes) → Option Bytes
  | [] => none
  | kvp :: rest =>
      match uri.uriUnescape .query kvp.1 with
      | none => scan param rest
      | some decodedParam =>
          if decodedParam = param then
            match uri.uriUnescape .query kvp.2 with
            | some value => some value
            | none => scan param rest
          else scan param rest

def getQueryParam (params : QueryParams) (param : Bytes) : Option Bytes :=
  if param ∈ params then some (getDecodedQueryParam uri beforeError params param)
  else scan uri param params.entries

/-- A pair whose name and value decode, the name to the parameter asked for. -/
structure Decodes (kvp : Sigma fun _ : Bytes => Bytes) (param value : Bytes) : Prop where
  name : uri.uriUnescape .query kvp.1 = some param
  value : uri.uriUnescape .query kvp.2 = some value

/-- A value is found if some pair decodes to one, and what is found is one. -/
structure Faithful (params : QueryParams) (param : Bytes) : Prop where
  sound : ∀ value, getQueryParam uri beforeError params param = some value →
    ∃ kvp ∈ params.entries, Decodes uri kvp param value
  complete : ∀ kvp ∈ params.entries, ∀ value, Decodes uri kvp param value →
    (getQueryParam uri beforeError params param).isSome = true

/-- A parameter that occurs undecoded stands for itself, and its value decodes. -/
def Plain (params : QueryParams) (param : Bytes) : Prop :=
  ∀ value, params.lookup param = some value →
    uri.uriUnescape .query param = some param ∧ ∃ text, uri.uriUnescape .query value = some text

/-- The pair that a lookup reads: the one of this very name if there is one, or the
first whose name decodes to it and whose value decodes. -/
def source (params : QueryParams) (param : Bytes) : Option (Sigma fun _ : Bytes => Bytes) :=
  if param ∈ params then (params.lookup param).map (Sigma.mk param)
  else params.entries.find? fun kvp =>
    uri.uriUnescape .query kvp.1 = some param ∧ (uri.uriUnescape .query kvp.2).isSome

/-- No pair contributes a result but those that decode to one. -/
def ReadsDecoded (params : QueryParams) (param : Bytes) : Prop :=
  ∀ kvp, source uri params param = some kvp → ∃ value, Decodes uri kvp param value

/-- One pair is spelled in another way, and may have moved to another place. No
other pair has the same name. -/
structure Respelled (params others : QueryParams) : Prop where
  spelled : ∃ (before after first last : List (Sigma fun _ : Bytes => Bytes))
    (raw spelling name value : Bytes),
    params.entries = before ++ ⟨raw, value⟩ :: after ∧
      others.entries = first ++ ⟨spelling, value⟩ :: last ∧ before ++ after = first ++ last ∧
      uri.uriUnescape .query raw = some name ∧ uri.uriUnescape .query spelling = some name ∧
      ∀ kvp ∈ before ++ after, uri.uriUnescape .query kvp.1 ≠ some name

variable {uri beforeError}

/-- The loop gives the first value among the pairs that decode to the parameter. -/
theorem scan_cons (param : Bytes) (kvp : Sigma fun _ : Bytes => Bytes)
    (rest : List (Sigma fun _ : Bytes => Bytes)) :
    scan uri param (kvp :: rest) =
      if uri.uriUnescape .query kvp.1 = some param then
        (uri.uriUnescape .query kvp.2).or (scan uri param rest)
      else scan uri param rest := by
  rw [scan]
  cases hName : uri.uriUnescape .query kvp.1 with
  | none => simp
  | some decodedParam =>
      by_cases hSame : decodedParam = param
      · cases hValue : uri.uriUnescape .query kvp.2 <;> simp [hSame]
      · simp [hSame]

/-- The scan finds something if any pair decodes to the parameter, with a value that
decodes too. It may be another pair. -/
theorem scan_isSome {param value : Bytes} {entries : List (Sigma fun _ : Bytes => Bytes)}
    {kvp : Sigma fun _ : Bytes => Bytes} (hMem : kvp ∈ entries) (h : Decodes uri kvp param value) :
    (scan uri param entries).isSome = true := by
  induction entries with
  | nil => cases hMem
  | cons first rest ih =>
      rw [scan_cons]
      rcases List.mem_cons.mp hMem with rfl | hRest
      · rw [if_pos h.name, h.value]
        rfl
      · split
        · rw [Option.isSome_or, ih hRest, Bool.or_true]
        · exact ih hRest

/-- The loop gives the value of the first pair that decodes to the parameter. -/
theorem scan_eq_find? (param : Bytes) (entries : List (Sigma fun _ : Bytes => Bytes)) :
    scan uri param entries =
      (entries.find? fun kvp => decide (uri.uriUnescape .query kvp.1 = some param ∧
        (uri.uriUnescape .query kvp.2).isSome)).map fun kvp => directText uri beforeError kvp.2 := by
  induction entries with
  | nil => rfl
  | cons kvp rest ih =>
      rw [scan_cons, List.find?_cons, ih]
      by_cases hName : uri.uriUnescape .query kvp.1 = some param
      · cases hValue : uri.uriUnescape .query kvp.2 <;> simp [hName, hValue, directText]
      · simp [hName]

/-- What a lookup returns is read from the pair that it is said to read. -/
theorem getQueryParam_eq_source (params : QueryParams) (param : Bytes) :
    getQueryParam uri beforeError params param =
      (source uri params param).map fun kvp => directText uri beforeError kvp.2 := by
  rw [getQueryParam, source]
  by_cases hDirect : param ∈ params
  · obtain ⟨value, hValue⟩ := Option.isSome_iff_exists.mp (AList.lookup_isSome.mpr hDirect)
    rw [if_pos hDirect, if_pos hDirect, getDecodedQueryParam, hValue]
    rfl
  · rw [if_neg hDirect, if_neg hDirect, scan_eq_find?]

/-- The pair read decodes to the parameter exactly if the parameter, where it occurs
undecoded, stands for itself with a value that decodes. The loop reads no other pair. -/
theorem readsDecoded_iff (params : QueryParams) (param : Bytes) :
    ReadsDecoded uri params param ↔ Plain uri params param := by
  rw [ReadsDecoded, Plain, source]
  by_cases hDirect : param ∈ params
  · obtain ⟨value, hValue⟩ := Option.isSome_iff_exists.mp (AList.lookup_isSome.mpr hDirect)
    simp only [if_pos hDirect, hValue, Option.map_some, Option.some.injEq, forall_eq']
    constructor
    · intro ⟨text, hDecodes⟩
      exact ⟨hDecodes.name, text, hDecodes.value⟩
    · intro ⟨hName, text, hText⟩
      exact ⟨text, hName, hText⟩
  · rw [if_neg hDirect, AList.lookup_eq_none.mpr hDirect]
    constructor
    · intro _ value hValue
      cases hValue
    · intro _ kvp hFound
      have hDecodes := List.find?_some hFound
      obtain ⟨hName, hValue⟩ := of_decide_eq_true hDecodes
      obtain ⟨value, hText⟩ := Option.isSome_iff_exists.mp hValue
      exact ⟨value, hName, hText⟩

/-- The pair that a lookup reads is one of the parameters of the request. -/
theorem source_mem {params : QueryParams} {param : Bytes} {kvp : Sigma fun _ : Bytes => Bytes}
    (h : source uri params param = some kvp) : kvp ∈ params.entries := by
  rw [source] at h
  split at h
  · obtain ⟨value, hValue, rfl⟩ := Option.map_eq_some_iff.mp h
    exact AList.mem_lookup_iff.mp hValue
  · exact List.mem_of_find?_eq_some h

/-- A parameter that stands for itself is looked up faithfully. -/
theorem Plain.faithful {params : QueryParams} {param : Bytes} (h : Plain uri params param) :
    Faithful uri beforeError params param := by
  constructor
  · intro value hFound
    rw [getQueryParam_eq_source] at hFound
    obtain ⟨kvp, hSource, rfl⟩ := Option.map_eq_some_iff.mp hFound
    obtain ⟨text, hDecodes⟩ := (readsDecoded_iff params param).mpr h kvp hSource
    refine ⟨kvp, source_mem hSource, hDecodes.name, ?_⟩
    rw [directText, hDecodes.value, Option.getD_some]
  · intro kvp hMem value hDecodes
    rw [getQueryParam]
    split
    · rfl
    · exact scan_isSome hMem hDecodes

theorem scan_append_of_ne {param : Bytes} {before : List (Sigma fun _ : Bytes => Bytes)}
    (hBefore : ∀ kvp ∈ before, uri.uriUnescape .query kvp.1 ≠ some param)
    (rest : List (Sigma fun _ : Bytes => Bytes)) :
    scan uri param (before ++ rest) = scan uri param rest := by
  induction before with
  | nil => rfl
  | cons kvp before ih =>
      rw [List.cons_append, scan_cons, if_neg (hBefore kvp (List.mem_cons_self ..))]
      exact ih fun other hMem => hBefore other (List.mem_cons_of_mem _ hMem)

/-- A pair of another name does not matter. -/
theorem scan_remove {param raw value : Bytes} (hRaw : uri.uriUnescape .query raw ≠ some param)
    (before after : List (Sigma fun _ : Bytes => Bytes)) :
    scan uri param (before ++ ⟨raw, value⟩ :: after) = scan uri param (before ++ after) := by
  induction before with
  | nil => rw [List.nil_append, scan_cons, if_neg hRaw, List.nil_append]
  | cons kvp before ih => rw [List.cons_append, scan_cons, List.cons_append, scan_cons, ih]

theorem dlookup_remove {param raw value : Bytes} (hRaw : param ≠ raw)
    (before after : List (Sigma fun _ : Bytes => Bytes)) :
    List.dlookup param (before ++ ⟨raw, value⟩ :: after) = List.dlookup param (before ++ after) := by
  rw [List.dlookup_append, List.dlookup_append, List.dlookup_cons_ne _ _ hRaw]

/-- The only pair of a name decides what is found under it, however it is spelled. It
is found directly, or by the scan that passes over all others. -/
theorem getQueryParam_only {params : QueryParams}
    {before after : List (Sigma fun _ : Bytes => Bytes)} {raw name value : Bytes}
    (hEntries : params.entries = before ++ ⟨raw, value⟩ :: after)
    (hRaw : uri.uriUnescape .query raw = some name)
    (hOthers : ∀ kvp ∈ before ++ after, uri.uriUnescape .query kvp.1 ≠ some name)
    (hPlain : Plain uri params name) :
    getQueryParam uri beforeError params name = uri.uriUnescape .query value := by
  by_cases hDirect : name ∈ params
  · obtain ⟨found, hFound⟩ := Option.isSome_iff_exists.mp (AList.lookup_isSome.mpr hDirect)
    obtain ⟨hName, text, hText⟩ := hPlain found hFound
    have hMem : (⟨name, found⟩ : Sigma fun _ : Bytes => Bytes) ∈ params.entries :=
      AList.mem_lookup_iff.mp hFound
    have hSame : found = value := by
      rw [hEntries, List.mem_append, List.mem_cons] at hMem
      rcases hMem with hBefore | hHere | hAfter
      · exact absurd hName (hOthers _ (List.mem_append_left _ hBefore))
      · cases hHere
        rfl
      · exact absurd hName (hOthers _ (List.mem_append_right _ hAfter))
    rw [getQueryParam, if_pos hDirect, getDecodedQueryParam, hFound, Option.getD_some, directText,
      ← hSame, hText, Option.getD_some]
  · rw [getQueryParam, if_neg hDirect, hEntries,
      scan_append_of_ne fun kvp hMem => hOthers kvp (List.mem_append_left _ hMem), scan_cons,
      if_pos hRaw]
    have hAfter := scan_append_of_ne (fun kvp hMem => hOthers kvp (List.mem_append_right _ hMem)) []
    rw [List.append_nil] at hAfter
    rw [hAfter, scan, Option.or_none]

/-- Where the spelling of a name is not itself asked for under another name, it
does not matter. -/
theorem Plain.ne_raw {params : QueryParams} {before after : List (Sigma fun _ : Bytes => Bytes)}
    {raw name value param : Bytes} (hPlain : Plain uri params param)
    (hEntries : params.entries = before ++ ⟨raw, value⟩ :: after)
    (hRaw : uri.uriUnescape .query raw = some name) (hOther : param ≠ name) : param ≠ raw := by
  rintro rfl
  have hFound : params.lookup param = some value := by
    rw [← Option.mem_def, AList.mem_lookup_iff, hEntries]
    exact List.mem_append_right _ (List.mem_cons_self ..)
  have hName := (hPlain value hFound).1
  exact hOther (Option.some.inj (hName.symm.trans hRaw))

/-- Under another name, the pair that is spelled anew is passed over, before and
after. -/
theorem getQueryParam_other {params : QueryParams}
    {before after : List (Sigma fun _ : Bytes => Bytes)} {raw name value param : Bytes}
    (hEntries : params.entries = before ++ ⟨raw, value⟩ :: after)
    (hRaw : uri.uriUnescape .query raw = some name) (hOther : param ≠ name)
    (hPlain : Plain uri params param) :
    getQueryParam uri beforeError params param =
      match List.dlookup param (before ++ after) with
      | some found => some (directText uri beforeError found)
      | none => scan uri param (before ++ after) := by
  have hLookup : params.lookup param = List.dlookup param (before ++ after) := by
    rw [AList.lookup, hEntries, dlookup_remove (hPlain.ne_raw hEntries hRaw hOther)]
  have hScan : scan uri param params.entries = scan uri param (before ++ after) := by
    rw [hEntries]
    apply scan_remove
    rw [hRaw]
    exact fun hName => hOther (Option.some.inj hName).symm
  rw [getQueryParam, hScan, getDecodedQueryParam, ← hLookup]
  cases hFound : params.lookup param with
  | none => rw [if_neg (AList.lookup_eq_none.mp hFound)]
  | some found => rw [if_pos (AList.lookup_isSome.mp (by rw [hFound]; rfl)), Option.getD_some]

/-- A parameter that is looked up as it is meant in both requests gives the same
result for all spellings of the names. -/
theorem getQueryParam_respelled {params others : QueryParams} (h : Respelled uri params others)
    {param : Bytes} (hPlain : Plain uri params param) (hOthers : Plain uri others param) :
    getQueryParam uri beforeError params param = getQueryParam uri beforeError others param := by
  obtain ⟨before, after, first, last, raw, spelling, name, value, hEntries, hSpelled, hRest, hRaw,
    hSpelling, hOnly⟩ := h.spelled
  by_cases hName : param = name
  · subst hName
    rw [getQueryParam_only hEntries hRaw hOnly hPlain,
      getQueryParam_only hSpelled hSpelling (hRest ▸ hOnly) hOthers]
  · rw [getQueryParam_other hEntries hRaw hName hPlain,
      getQueryParam_other hSpelled hSpelling hName hOthers, hRest]

variable (uri beforeError)

/-- A lookup returns the text of the pair that it reads, and that pair decodes to the
parameter exactly if the parameter, where it occurs undecoded, stands for itself with
a value that decodes. It is then looked up faithfully, however the names are spelled. -/
theorem getQueryParam_faithful_iff (params : QueryParams) (param : Bytes) :
    (getQueryParam uri beforeError params param =
      (source uri params param).map fun kvp => directText uri beforeError kvp.2) ∧
      (ReadsDecoded uri params param ↔ Plain uri params param) ∧
      (Plain uri params param → Faithful uri beforeError params param) ∧
      ∀ others, Respelled uri params others → Plain uri params param → Plain uri others param →
        getQueryParam uri beforeError params param = getQueryParam uri beforeError others param :=
  ⟨getQueryParam_eq_source params param, readsDecoded_iff params param, Plain.faithful,
    fun _ hRespelled hPlain hOthers => getQueryParam_respelled hRespelled hPlain hOthers⟩

end Lookup

/-- An encoded name with an encoded value. -/
theorem getQueryParam_faithful_example :
    Faithful uriDecoder (fun _ => []) (AList.insert (ascii "test%20variable") (ascii "value%26") ∅)
      (ascii "test variable") := by
  apply (getQueryParam_faithful_iff uriDecoder (fun _ => []) _ _).2.2.1
  intro value hValue
  cases hValue

/-- A malformed value is returned as the text before the error, and a name is
found under a spelling that decodes to another name. -/
theorem getQueryParam_not_faithful :
    getQueryParam uriDecoder (fun _ => []) (AList.insert (ascii "a") (ascii "%") ∅) (ascii "a") =
        some [] ∧
      ¬Faithful uriDecoder (fun _ => []) (AList.insert (ascii "a") (ascii "%") ∅) (ascii "a") ∧
      getQueryParam uriDecoder (fun _ => []) (AList.insert (ascii "a+b") (ascii "1") ∅) (ascii "a+b") =
        some (ascii "1") ∧
      uriDecoder.uriUnescape .query (ascii "a+b") = some (ascii "a b") := by
  have hFound : getQueryParam uriDecoder (fun _ => []) (AList.insert (ascii "a") (ascii "%") ∅)
      (ascii "a") = some [] := rfl
  refine ⟨hFound, fun h => ?_, rfl, rfl⟩
  obtain ⟨kvp, hMem, hDecodes⟩ := h.sound [] hFound
  obtain rfl := List.mem_singleton.mp hMem
  have hValue := hDecodes.value
  contradiction

end QueryParams

end Nozomi
