import KseRewriteProxy.Proxy.Agreement

/-!
# Responses to the client

What of an upstream response reaches the client.

## The frame

`Filters` says which headers a response that `response_filter` has let through can have, whichever
of its exits it took: the response with the request id, or what `stripRepresentation` and
`finishHeaders` have made of it. `responseFilter_frame` reads off the headers that the hook may
touch, and when it touches none but the request id.

## `Vary`

The names of `Vary` are parsed from all its values, and when `Accept-Encoding` is not covered, they
are completed and printed as one value. That they are read back as they were is
`map_trim_split_intercalate`, which needs that no name has a comma and that all are trimmed
(`IsListed`). So `varyValues_of_responseFilter` can say which names a rewritten response has, in
which order, and that completing them again changes nothing.

## `HEAD`

`Alike` compares the answers to `HEAD` and to `GET`, which have different request ids. Every step of
`response_filter` keeps two responses alike for two contexts that read the same target
(`ReadsAlike`), so the answers differ in nothing else.
-/

namespace KseRewriteProxy

open Text

/-! ### Header updates -/

namespace ResponseHeader

/-- The values of a header. -/
def values (self : ResponseHeader) (name : Str) : List Bytes :=
  (self.headers.getAll name).map HeaderValue.asBytes

/-- The inserted value is the only one, and other headers are kept. -/
theorem getAll_of_insertHeader {self response : ResponseHeader} {name : Str} {value : Bytes}
    (h : self.insertHeader name value = .ok response) :
    response.values name = [value] ∧
      ∀ other ≠ name, response.headers.getAll other = self.headers.getAll other := by
  rw [insertHeader, HeaderValue.fromBytes] at h
  split at h
  · rename_i field hfield
    split at hfield
    · obtain rfl := Option.some.inj hfield
      obtain rfl := Except.ok.inj h
      refine ⟨?_, fun other hother ↦ HeaderMap.getAll_insert_of_ne _ hother _⟩
      rw [values, HeaderMap.getAll_insert_self]
      rfl
    · cases hfield
  · cases h

/-- An inserted header replaces its values, and no others. -/
theorem values_of_insertHeader {self response : ResponseHeader} {name : Str} {value : Bytes}
    (h : self.insertHeader name value = .ok response) (other : Str) :
    response.values other = if other = name then [value] else self.values other := by
  split
  · rename_i heq
    rw [heq, (getAll_of_insertHeader h).1]
  · rename_i hne
    rw [values, (getAll_of_insertHeader h).2 other hne, values]

theorem values_removeHeader (self : ResponseHeader) (name other : Str) :
    (self.removeHeader name).values other = if other = name then [] else self.values other := by
  show (HeaderMap.getAll (HeaderMap.remove _ _) other).map _ = _
  split
  · rename_i heq
    rw [heq, HeaderMap.getAll_remove_self]
    rfl
  · rename_i hne
    rw [HeaderMap.getAll_remove_of_ne _ hne]
    rfl

theorem values_foldl_removeHeader (names : List Str) (self : ResponseHeader) (other : Str) :
    (names.foldl removeHeader self).values other =
      if other ∈ names then [] else self.values other := by
  induction names generalizing self with
  | nil => exact (if_neg List.not_mem_nil).symm
  | cons first names ih =>
    rw [List.foldl_cons, ih, values_removeHeader]
    by_cases hname : other ∈ names
    · rw [if_pos hname, if_pos (List.mem_cons_of_mem _ hname)]
    · rw [if_neg hname]
      exact if_congr (by rw [List.mem_cons]; exact (or_iff_left hname).symm) rfl rfl

end ResponseHeader

/-! ### The frame of `response_filter` -/

/-- The headers that `response_filter` may touch. -/
def touchedHeaders : List Str :=
  [str "x-request-id", str "vary", str "etag", str "cache-control", str "content-type"] ++
    RewriteProxy.representationHeaders

/-- `ensure_vary_accept_encoding` changes `Vary` only. -/
theorem values_of_ensureVaryAcceptEncoding {response completed : ResponseHeader}
    (h : ensureVaryAcceptEncoding response = .ok completed) {name : Str}
    (hname : name ≠ str "vary") :
    completed.values name = response.values name := by
  obtain ⟨headers, heq, hkept⟩ := exists_ensureVaryAcceptEncoding_eq response
  obtain rfl := Except.ok.inj (heq.symm.trans h)
  exact congrArg _ (hkept name hname)

/-- What describes the upstream representation is removed, and nothing else is. -/
theorem values_of_stripRepresentation {response stripped : ResponseHeader}
    (h : RewriteProxy.stripRepresentation response = .ok stripped) {name : Str}
    (hname : name ∉ RewriteProxy.representationHeaders) (hvary : name ≠ str "vary") :
    stripped.values name = response.values name := by
  rw [RewriteProxy.stripRepresentation] at h
  obtain ⟨inserted, hinserted, hcompleted⟩ := bind_eq_ok_iff.1 h
  have hranges : name ≠ str "accept-ranges" := by
    rintro rfl
    exact hname (by decide)
  rw [values_of_ensureVaryAcceptEncoding hcompleted hvary,
    ResponseHeader.values_of_insertHeader hinserted, if_neg hranges,
    ResponseHeader.values_foldl_removeHeader, if_neg hname]

/-- The headers of a rewritten body are three. -/
theorem values_of_finishHeaders {derivedEtag : Option Str} {response header : ResponseHeader}
    {ctx : RequestContext}
    (h : (RewriteProxy.finishHeaders derivedEtag response ctx).result = .ok header) {name : Str}
    (hetag : name ≠ str "etag") (hcache : name ≠ str "cache-control")
    (htype : name ≠ str "content-type") : header.values name = response.values name := by
  rw [RewriteProxy.finishHeaders.eq_def] at h
  cases derivedEtag with
  | none =>
    have h : (response.removeHeader (str "etag")).insertHeader (str "cache-control")
      (bytes "no-store") = .ok header := h
    rw [ResponseHeader.values_of_insertHeader h, if_neg hcache,
      ResponseHeader.values_removeHeader, if_neg hetag]
  | some etag =>
    simp only at h
    split at h
    · cases h
    rename_i tagged htagged
    split at h
    · obtain rfl := Except.ok.inj h
      rw [ResponseHeader.values_removeHeader, if_neg htype]
      exact (ResponseHeader.values_of_insertHeader htagged name).trans (if_neg hetag)
    · obtain rfl := Except.ok.inj h
      rw [ResponseHeader.values_of_insertHeader htagged, if_neg hetag]

/-- What a response has come through when `response_filter` returns its header. -/
inductive Filters (self : RewriteProxy) (response : ResponseHeader) (ctx : RequestContext)
    (header : ResponseHeader) : Prop
  /-- Only the request id is set. -/
  | relayed (hid : response.insertHeader (str "x-request-id") ctx.requestId.asBytes = .ok header)
    (htreatment : ∀ profile extension headOnly,
      ctx.decision = .rewrite profile extension headOnly →
      treatment self profile ctx response = .bypassed)
  /-- The headers become those of a rewritten body, or of a 304. -/
  | finished {identified stripped : ResponseHeader} {profile : RewriteProfile} {extension : Str}
    {headOnly : Bool} (hdecision : ctx.decision = .rewrite profile extension headOnly)
    (htreatment : treatment self profile ctx response = .rewritten ∨
      treatment self profile ctx response = .notModified)
    (hid : response.insertHeader (str "x-request-id") ctx.requestId.asBytes = .ok identified)
    (hstripped : RewriteProxy.stripRepresentation identified = .ok stripped)
    (hfinished : (RewriteProxy.finishHeaders (self.derivedEtag response ctx) stripped ctx).result =
      .ok header)

/-- **Every header that `response_filter` returns has come one of these ways.** -/
theorem filters_of_responseFilter {self : RewriteProxy} {response header : ResponseHeader}
    {ctx : RequestContext} (h : (self.responseFilter response ctx).result = .ok header) :
    Filters self response ctx header := by
  rw [RewriteProxy.responseFilter] at h
  split at h
  · cases h
  rename_i identified hid
  have hstatus : identified.status = response.status := ResponseHeader.status_of_insertHeader hid
  have hget : ∀ name ≠ str "x-request-id",
      identified.headers.get name = response.headers.get name := fun name hname ↦
    congrArg List.head? ((ResponseHeader.getAll_of_insertHeader hid).2 name hname)
  cases hdecision : ctx.decision with
  | bypass =>
    rw [hdecision] at h
    obtain rfl := Except.ok.inj h
    exact .relayed hid fun _ _ _ hrewrite ↦ absurd (hdecision.symm.trans hrewrite) (by simp)
  | rewrite profile extension headOnly =>
    have hrelayed : treatment self profile ctx response = .bypassed → identified = header →
        Filters self response ctx header := by
      rintro htreatment rfl
      refine .relayed hid fun _ _ _ hrewrite ↦ ?_
      obtain ⟨rfl, -, -⟩ := RewriteDecision.rewrite.inj (hdecision.symm.trans hrewrite)
      exact htreatment
    simp only [hdecision, hstatus, hget (str "content-type") (by decide),
      hget (str "content-encoding") (by decide)] at h
    -- the checks in their order
    split at h
    · rename_i hne
      exact hrelayed (by rw [treatment, if_pos hne]) (Except.ok.inj h)
    rename_i hok
    split at h
    · rename_i htype
      simp only at h
      split at h
      · rename_i hhtml
        exact hrelayed (by rw [treatment, if_neg hok, if_pos htype, if_pos hhtml])
          (Except.ok.inj h)
      · cases h
    rename_i htype
    split at h
    · cases h
    rename_i hencoding
    split at h
    · cases h
    rename_i stripped hstripped
    have hderived : self.derivedEtag identified ctx = self.derivedEtag response ctx := by
      rw [RewriteProxy.derivedEtag, hget (str "etag") (by decide), RewriteProxy.derivedEtag]
    rw [hderived] at h
    refine .finished hdecision ?_ hid hstripped h
    rw [treatment, if_neg hok, if_neg htype, if_neg hencoding]
    split
    · exact Or.inr rfl
    · exact Or.inl rfl

section

variable {self : RewriteProxy} {response header : ResponseHeader} {ctx : RequestContext}

/-- A header that neither the strip nor the end of the hook touches. -/
theorem Filters.values_eq (h : Filters self response ctx header) {name : Str}
    (hname : name ∉ RewriteProxy.representationHeaders) (hvary : name ≠ str "vary")
    (hetag : name ≠ str "etag") (hcache : name ≠ str "cache-control")
    (htype : name ≠ str "content-type") :
    header.values name =
      if name = str "x-request-id" then [ctx.requestId.asBytes] else response.values name := by
  cases h with
  | relayed hid => exact ResponseHeader.values_of_insertHeader hid name
  | finished hdecision htreatment hid hstripped hfinished =>
    rw [values_of_finishHeaders hfinished hetag hcache htype,
      values_of_stripRepresentation hstripped hname hvary]
    exact ResponseHeader.values_of_insertHeader hid name

/-- The client gets the request id. -/
theorem requestId_of_responseFilter (h : (self.responseFilter response ctx).result = .ok header) :
    header.values (str "x-request-id") = [ctx.requestId.asBytes] := by
  rw [(filters_of_responseFilter h).values_eq (by decide) (by decide) (by decide) (by decide)
    (by decide), if_pos rfl]

/-- A response that is neither rewritten nor answered with 304 is relayed. -/
theorem relayed_of_responseFilter (h : (self.responseFilter response ctx).result = .ok header)
    (hbypassed : ∀ profile extension headOnly, ctx.decision = .rewrite profile extension headOnly →
      treatment self profile ctx response = .bypassed) :
    header.status = response.status ∧
      ∀ name ≠ str "x-request-id", header.values name = response.values name := by
  cases filters_of_responseFilter h with
  | relayed hid =>
    exact ⟨ResponseHeader.status_of_insertHeader hid, fun name hname ↦
      (ResponseHeader.values_of_insertHeader hid name).trans (if_neg hname)⟩
  | @finished identified stripped profile extension headOnly hdecision htreatment =>
    rw [hbypassed profile extension headOnly hdecision] at htreatment
    exact absurd htreatment (by simp)

/-- **The frame of `response_filter`**: the client gets the request id once; every header outside of
`touchedHeaders` as the upstream sent it; and every other header as well unless the response is
rewritten or not modified. -/
theorem responseFilter_frame {self : RewriteProxy} {response header : ResponseHeader}
    {ctx : RequestContext} (h : (self.responseFilter response ctx).result = .ok header) :
    header.values (str "x-request-id") = [ctx.requestId.asBytes] ∧
      (∀ name ∉ touchedHeaders, header.values name = response.values name) ∧
      ((∀ profile extension headOnly, ctx.decision = .rewrite profile extension headOnly →
          treatment self profile ctx response = .bypassed) →
        header.status = response.status ∧
          ∀ name ≠ str "x-request-id", header.values name = response.values name) := by
  refine ⟨requestId_of_responseFilter h, fun name hname ↦ ?_, relayed_of_responseFilter h⟩
  rw [touchedHeaders, List.mem_append, not_or] at hname
  simp only [List.mem_cons, List.not_mem_nil, or_false, not_or] at hname
  obtain ⟨⟨hne, hvary, hetag, hcache, htype⟩, hrepresentation⟩ := hname
  rw [(filters_of_responseFilter h).values_eq hrepresentation hvary hetag hcache htype, if_neg hne]

end

/-- The header of a rewritten script. -/
theorem exists_responseFilter_script (response : ResponseHeader)
    (htreatment : ∀ ctx, treatment regionsProxy .kubekeyAssetJs ctx response = .rewritten) :
    ∃ ctx header, ctx.decision = .rewrite .kubekeyAssetJs kubekeyName false ∧
      (regionsProxy.responseFilter response ctx).result = .ok header := by
  obtain ⟨ctx, hadmits, hdecision⟩ := admits_kubekeyRequest
  have hcrates : regionsProxy.crates.EncodesUrlSafe :=
    DigestCrates.ofHash_encodesUrlSafe recordedBlake3
  have htreats := responseFilter_treats hcrates (hadmits.ready hdecision).1 response
  rw [htreatment ctx] at htreats
  obtain ⟨⟨header, hheader, -⟩, -⟩ := htreats
  exact ⟨ctx, header, hdecision, hheader⟩

/-- A script that sets two cookies, and has the length of the upstream body. -/
def cookieScript : ResponseHeader where
  status := 200
  headers := scriptResponse.headers ++
    [(str "set-cookie", ⟨bytes "a=1", by decide⟩), (str "content-length", ⟨bytes "7", by decide⟩),
      (str "set-cookie", ⟨bytes "b=2", by decide⟩)]

/-- A rewritten script sets both cookies. -/
theorem responseFilter_frame_script : ∃ ctx header,
    (regionsProxy.responseFilter cookieScript ctx).result = .ok header ∧
      header.values (str "x-request-id") = [ctx.requestId.asBytes] ∧
      header.values (str "set-cookie") = [bytes "a=1", bytes "b=2"] := by
  obtain ⟨ctx, header, -, hheader⟩ := exists_responseFilter_script cookieScript fun _ ↦ rfl
  have hframe := responseFilter_frame hheader
  exact ⟨ctx, header, hheader, hframe.1, (hframe.2.1 _ (by decide)).trans (by decide)⟩

/-! ### `Vary` -/

/-- What is trimmed is not trimmed again. -/
theorem trim_trim (value : Str) : trim (trim value) = trim value := by
  rcases eq_or_ne (trim value) [] with hnil | hne
  · rw [hnil]
    rfl
  have hlast := getLast_trimEndMatches (l := value.dropWhile isWhitespace) hne
  have hfirst : ∃ c t, trim value = c :: t ∧ isWhitespace c = false := by
    obtain ⟨c, t, heq⟩ := List.exists_cons_of_ne_nil hne
    refine ⟨c, t, heq, ?_⟩
    obtain ⟨u, hu⟩ := trimEndMatches_isPrefix isWhitespace (value.dropWhile isWhitespace)
    have hdropped : value.dropWhile isWhitespace = c :: (t ++ u) := by
      rw [← hu, ← List.cons_append, ← heq]
      rfl
    have hhead := List.head_dropWhile_not isWhitespace (l := value) (by rw [hdropped]; simp)
    simpa only [hdropped, List.head_cons] using hhead
  have hkeep := trimMatches_append (p := isWhitespace) (a := []) (m := trim value) (b := [])
    (fun c hc ↦ absurd hc List.not_mem_nil) (fun c hc ↦ absurd hc List.not_mem_nil) hfirst
    ⟨_, _, (List.dropLast_concat_getLast hne).symm, hlast⟩
  rwa [List.nil_append, List.append_nil] at hkeep

/-- A value that a list of values is read back with. -/
structure IsListed (value : Str) : Prop where
  ne_nil : value ≠ []
  not_mem : ',' ∉ value
  trim_eq : trim value = value

/-- **A list of values is read back from its text.** -/
theorem map_trim_split_intercalate {values : List Str} (hne : values ≠ [])
    (h : ∀ value ∈ values, IsListed value) :
    (split ',' ((str ", ").intercalate values)).map trim = values := by
  induction values with
  | nil => exact absurd rfl hne
  | cons value values ih =>
    have hvalue := h value List.mem_cons_self
    cases values with
    | nil => rw [List.intercalate_singleton, split_of_not_mem hvalue.not_mem, List.map_singleton,
        hvalue.trim_eq]
    | cons value' values =>
      have hih := ih (List.cons_ne_nil _ _) fun v hv ↦ h v (List.mem_cons_of_mem _ hv)
      -- The blank after the comma is trimmed with the next value.
      obtain ⟨first, rest, hsplit, hblank⟩ := split_cons_of_ne (d := ',') (a := ' ') (by decide)
        ((str ", ").intercalate (value' :: values))
      have hcons : (str ", ").intercalate (value :: value' :: values) =
          value ++ ',' :: ' ' :: (str ", ").intercalate (value' :: values) := by
        rw [List.intercalate_cons_cons, List.append_assoc]
        rfl
      have htrim : trim (' ' :: first) = trim first := by
        rw [trim, trimMatches, List.dropWhile_cons_of_pos (by decide)]
        rfl
      rw [hcons, split_append_cons, split_of_not_mem hvalue.not_mem, hblank, List.map_append,
        List.map_singleton, hvalue.trim_eq, List.map_cons, htrim, ← List.map_cons, ← hsplit, hih]
      rfl

/-- The field names of `Vary` are read back when they are listed. -/
theorem isListed_of_mem_varyValues {response : ResponseHeader} {value : Str}
    (h : value ∈ varyValues response) : IsListed value := by
  obtain ⟨hmem, hne⟩ := List.mem_filter.1 h
  obtain ⟨segment, hsegment, rfl⟩ := List.mem_map.1 hmem
  obtain ⟨text, -, hsegment⟩ := List.mem_flatMap.1 hsegment
  refine ⟨by simpa using hne, fun hcomma ↦ ?_, trim_trim segment⟩
  exact not_mem_of_mem_split hsegment ((trimMatches_sublist _ _).subset hcomma)

/-- A value of `Vary` that covers `Accept-Encoding`. -/
def CoversAcceptEncoding (value : Str) : Prop :=
  value = str "*" ∨ eqIgnoreAsciiCase value (str "accept-encoding") = true

instance (value : Str) : Decidable (CoversAcceptEncoding value) :=
  inferInstanceAs (Decidable (_ ∨ _))

/-- The values of `Vary` with one that covers `Accept-Encoding`. -/
def completeVary (values : List Str) : List Str :=
  if ∃ value ∈ values, CoversAcceptEncoding value then values
  else values ++ [str "Accept-Encoding"]

/-- A completed `Vary` covers `Accept-Encoding`. -/
theorem exists_mem_completeVary (values : List Str) :
    ∃ value ∈ completeVary values, CoversAcceptEncoding value := by
  rw [completeVary]
  split
  · assumption
  · exact ⟨_, List.mem_append_right _ List.mem_cons_self, by decide⟩

/-- The values of `Vary` are read from the values of the header. -/
theorem varyValues_congr {response response' : ResponseHeader}
    (h : response.values (str "vary") = response'.values (str "vary")) :
    varyValues response = varyValues response' := by
  have hinjective : Function.Injective HeaderValue.asBytes := by
    rintro ⟨bytes, hbytes⟩ ⟨bytes', hbytes'⟩ rfl
    rfl
  rw [varyValues, List.map_injective_iff.2 hinjective h, varyValues]

/-- **`Vary` is completed and keeps its values**: the printed header is read back as the values
that it had, in their order, and `Accept-Encoding` unless they cover it. -/
theorem varyValues_of_ensureVaryAcceptEncoding {response completed : ResponseHeader}
    (h : ensureVaryAcceptEncoding response = .ok completed) :
    varyValues completed = completeVary (varyValues response) := by
  have hcovers : ((varyValues response).any fun value ↦
      value == str "*" || eqIgnoreAsciiCase value (str "accept-encoding")) = true ↔
      ∃ value ∈ varyValues response, CoversAcceptEncoding value := by
    simp only [List.any_eq_true, Bool.or_eq_true, beq_iff_eq, CoversAcceptEncoding]
  rw [ensureVaryAcceptEncoding] at h
  simp only [hcovers] at h
  rw [completeVary]
  split at h
  · rename_i hsome
    rw [if_pos hsome, Except.ok.inj h]
  · rename_i hnone
    rw [if_neg hnone]
    have hlisted : ∀ value ∈ varyValues response ++ [str "Accept-Encoding"], IsListed value := by
      intro value hvalue
      rcases List.mem_append.1 hvalue with hvalue | hvalue
      · exact isListed_of_mem_varyValues hvalue
      · rw [List.mem_singleton.1 hvalue]
        exact ⟨by decide, by decide, by decide⟩
    have hvisible : Visible ((str ", ").intercalate
        (varyValues response ++ [str "Accept-Encoding"])) := by
      refine visible_intercalate (visible_str (by decide)) fun value hvalue ↦ ?_
      rcases List.mem_append.1 hvalue with hvalue | hvalue
      · exact visible_of_mem_varyValues hvalue
      · rw [List.mem_singleton.1 hvalue]
        exact visible_str (by decide)
    obtain ⟨field, hfield, hbytes⟩ : ∃ field, completed.headers.getAll (str "vary") = [field] ∧
        field.asBytes = Str.asBytes ((str ", ").intercalate
          (varyValues response ++ [str "Accept-Encoding"])) := by
      have hvalues := (ResponseHeader.getAll_of_insertHeader h).1
      obtain ⟨field, hfield⟩ := List.length_eq_one_iff.1
        ((List.length_map _).symm.trans (congrArg List.length hvalues))
      rw [ResponseHeader.values, hfield] at hvalues
      exact ⟨field, hfield, List.head_eq_of_cons_eq hvalues⟩
    rw [varyValues, hfield, List.filterMap_cons_some (HeaderValue.toStr_of_visible hvisible hbytes),
      List.filterMap_nil, List.flatMap_singleton, map_trim_split_intercalate (by simp) hlisted,
      List.filter_eq_self]
    intro value hvalue
    simpa using (hlisted value hvalue).ne_nil

/-- A header that covers `Accept-Encoding` is not completed again. -/
theorem ensureVaryAcceptEncoding_eq_self {response : ResponseHeader}
    (h : ∃ value ∈ varyValues response, CoversAcceptEncoding value) :
    ensureVaryAcceptEncoding response = .ok response := by
  obtain ⟨value, hvalue, hcovers⟩ := h
  have hany : ((varyValues response).any fun value ↦
      value == str "*" || eqIgnoreAsciiCase value (str "accept-encoding")) = true := by
    refine List.any_eq_true.2 ⟨value, hvalue, ?_⟩
    rw [Bool.or_eq_true, beq_iff_eq]
    exact hcovers
  rw [ensureVaryAcceptEncoding]
  exact if_pos hany

/-- Two headers are the same up to the request id. -/
def Alike (a b : ResponseHeader) : Prop :=
  a.status = b.status ∧
    ∀ name ≠ str "x-request-id", a.headers.getAll name = b.headers.getAll name

/-- Two results are the same up to the request id. -/
inductive AlikeResults : Except ProxyError ResponseHeader → Except ProxyError ResponseHeader → Prop
  | ok {a b : ResponseHeader} (h : Alike a b) : AlikeResults (.ok a) (.ok b)
  | error (error : ProxyError) : AlikeResults (.error error) (.error error)

/-- What is rewritten by a decision, whatever the method. -/
def RewriteDecision.target : RewriteDecision → Option (RewriteProfile × Str)
  | .bypass => none
  | .rewrite profile extension _ => some (profile, extension)

/-- What `response_filter` reads of two contexts is the same. -/
structure ReadsAlike (ctx ctx' : RequestContext) : Prop where
  target : ctx.decision.target = ctx'.decision.target
  extension_eq : ctx.extension = ctx'.extension
  clientIfNoneMatch : ctx.clientIfNoneMatch = ctx'.clientIfNoneMatch
  visible : Visible ctx.requestId
  visible' : Visible ctx'.requestId

namespace Alike

variable {a b : ResponseHeader}

theorem removeHeader (h : Alike a b) (name : Str) :
    Alike (a.removeHeader name) (b.removeHeader name) := by
  refine ⟨h.1, fun other hother ↦ ?_⟩
  show HeaderMap.getAll (HeaderMap.remove _ _) _ = HeaderMap.getAll (HeaderMap.remove _ _) _
  rcases eq_or_ne other name with rfl | hne
  · rw [HeaderMap.getAll_remove_self, HeaderMap.getAll_remove_self]
  · rw [HeaderMap.getAll_remove_of_ne _ hne, HeaderMap.getAll_remove_of_ne _ hne, h.2 other hother]

theorem foldl_removeHeader (h : Alike a b) (names : List Str) :
    Alike (names.foldl ResponseHeader.removeHeader a)
      (names.foldl ResponseHeader.removeHeader b) := by
  induction names generalizing a b with
  | nil => exact h
  | cons name names ih => exact ih (h.removeHeader name)

theorem insertHeader (h : Alike a b) (name : Str) (value : Bytes) :
    AlikeResults (a.insertHeader name value) (b.insertHeader name value) := by
  rw [ResponseHeader.insertHeader, ResponseHeader.insertHeader]
  cases HeaderValue.fromBytes value with
  | none => exact .error _
  | some field =>
    refine .ok ⟨h.1, fun other hother ↦ ?_⟩
    show HeaderMap.getAll (HeaderMap.insert _ _ _) _ = HeaderMap.getAll (HeaderMap.insert _ _ _) _
    rcases eq_or_ne other name with rfl | hne
    · rw [HeaderMap.getAll_insert_self, HeaderMap.getAll_insert_self]
    · rw [HeaderMap.getAll_insert_of_ne _ hne, HeaderMap.getAll_insert_of_ne _ hne,
        h.2 other hother]

theorem ensureVaryAcceptEncoding (h : Alike a b) :
    AlikeResults (KseRewriteProxy.ensureVaryAcceptEncoding a)
      (KseRewriteProxy.ensureVaryAcceptEncoding b) := by
  have hvary : varyValues a = varyValues b := by
    rw [varyValues, h.2 (str "vary") (by decide), varyValues]
  rw [KseRewriteProxy.ensureVaryAcceptEncoding, KseRewriteProxy.ensureVaryAcceptEncoding, hvary]
  split
  · exact .ok h
  · exact h.insertHeader _ _

theorem stripRepresentation (h : Alike a b) :
    AlikeResults (RewriteProxy.stripRepresentation a) (RewriteProxy.stripRepresentation b) := by
  rw [RewriteProxy.stripRepresentation, RewriteProxy.stripRepresentation]
  have hinsert := (h.foldl_removeHeader RewriteProxy.representationHeaders).insertHeader
    (str "accept-ranges") (bytes "none")
  generalize ResponseHeader.insertHeader _ _ _ = result at hinsert
  generalize ResponseHeader.insertHeader _ _ _ = result' at hinsert
  cases hinsert with
  | ok h => exact h.ensureVaryAcceptEncoding
  | error => exact .error _

/-- Two headers that are alike are finished alike, for clients that hold the same tags. -/
theorem finishHeaders (h : Alike a b) (derivedEtag : Option Str) {ctx ctx' : RequestContext}
    (hclient : ctx.clientIfNoneMatch = ctx'.clientIfNoneMatch) :
    AlikeResults (RewriteProxy.finishHeaders derivedEtag a ctx).result
      (RewriteProxy.finishHeaders derivedEtag b ctx').result := by
  cases derivedEtag with
  | none =>
    exact (h.removeHeader (str "etag")).insertHeader (str "cache-control") (bytes "no-store")
  | some etag =>
    have hinsert := h.insertHeader (str "etag") etag.asBytes
    rw [RewriteProxy.finishHeaders.eq_def, RewriteProxy.finishHeaders.eq_def, hclient]
    simp only
    generalize ResponseHeader.insertHeader _ _ _ = result at hinsert
    generalize ResponseHeader.insertHeader _ _ _ = result' at hinsert
    cases hinsert with
    | error => exact .error _
    | @ok a b h =>
      simp only
      split
      · have hmodified : Alike { a with status := 304 } { b with status := 304 } := ⟨rfl, h.2⟩
        exact .ok (hmodified.removeHeader _)
      · exact .ok h

end Alike

/-- **`response_filter` answers alike contexts alike.** -/
theorem responseFilter_alike (self : RewriteProxy) {ctx ctx' : RequestContext}
    (h : ReadsAlike ctx ctx') (response : ResponseHeader) :
    AlikeResults (self.responseFilter response ctx).result
      (self.responseFilter response ctx').result := by
  obtain ⟨headers, hid, hkept⟩ : ∃ headers,
      response.insertHeader (str "x-request-id") ctx.requestId.asBytes =
        .ok { response with headers := headers } ∧ ∀ name ≠ str "x-request-id",
          headers.getAll name = response.headers.getAll name :=
    ⟨_, response.insertHeader_eq _ (all_isHeaderByte_of_visible h.visible), fun _ hname ↦
      HeaderMap.getAll_insert_of_ne _ hname _⟩
  obtain ⟨headers', hid', hkept'⟩ : ∃ headers,
      response.insertHeader (str "x-request-id") ctx'.requestId.asBytes =
        .ok { response with headers := headers } ∧ ∀ name ≠ str "x-request-id",
          headers.getAll name = response.headers.getAll name :=
    ⟨_, response.insertHeader_eq _ (all_isHeaderByte_of_visible h.visible'), fun _ hname ↦
      HeaderMap.getAll_insert_of_ne _ hname _⟩
  have halike : Alike { response with headers := headers } { response with headers := headers' } :=
    ⟨rfl, fun name hname ↦ (hkept name hname).trans (hkept' name hname).symm⟩
  have hget : ∀ name ≠ str "x-request-id",
      HeaderMap.get headers name = HeaderMap.get headers' name :=
    fun name hname ↦ congrArg List.head? (halike.2 name hname)
  rw [RewriteProxy.responseFilter, RewriteProxy.responseFilter, hid, hid']
  have htarget := h.target
  cases hdecision : ctx.decision with
  | bypass =>
    cases hdecision' : ctx'.decision with
    | bypass => exact .ok halike
    | rewrite => rw [hdecision, hdecision'] at htarget; cases htarget
  | rewrite profile extension headOnly =>
    cases hdecision' : ctx'.decision with
    | bypass => rw [hdecision, hdecision'] at htarget; cases htarget
    | rewrite profile' extension' headOnly' =>
      rw [hdecision, hdecision'] at htarget
      obtain ⟨rfl, rfl⟩ := Prod.mk.inj (Option.some.inj htarget)
      simp only [hget (str "content-type") (by decide), hget (str "content-encoding") (by decide)]
      split
      · exact .ok halike
      split
      · simp only
        split
        · exact .ok halike
        · exact .error _
      split
      · exact .error _
      have hstrip := halike.stripRepresentation
      have hderived : self.derivedEtag { response with headers := headers } ctx =
          self.derivedEtag { response with headers := headers' } ctx' := by
        show ((HeaderMap.get headers (str "etag")).bind reliableEtag).map _ =
          ((HeaderMap.get headers' (str "etag")).bind reliableEtag).map _
        rw [hget (str "etag") (by decide), h.extension_eq]
      rw [hderived]
      generalize RewriteProxy.stripRepresentation _ = result at hstrip
      generalize RewriteProxy.stripRepresentation _ = result' at hstrip
      cases hstrip with
      | error => exact .error _
      | ok hstripped => exact hstripped.finishHeaders _ h.clientIfNoneMatch

/-- `stop_rewrite` changes nothing that `response_filter` reads. -/
theorem responseFilter_keeps (self : RewriteProxy) (response : ResponseHeader)
    (ctx : RequestContext) :
    (self.responseFilter response ctx).ctx.requestId = ctx.requestId ∧
      (self.responseFilter response ctx).ctx.decision = ctx.decision ∧
      (self.responseFilter response ctx).ctx.extension = ctx.extension ∧
      (self.responseFilter response ctx).ctx.clientIfNoneMatch = ctx.clientIfNoneMatch := by
  have hfinish : ∀ derivedEtag stripped,
      (RewriteProxy.finishHeaders derivedEtag stripped ctx).ctx.requestId = ctx.requestId ∧
      (RewriteProxy.finishHeaders derivedEtag stripped ctx).ctx.decision = ctx.decision ∧
      (RewriteProxy.finishHeaders derivedEtag stripped ctx).ctx.extension = ctx.extension ∧
      (RewriteProxy.finishHeaders derivedEtag stripped ctx).ctx.clientIfNoneMatch =
        ctx.clientIfNoneMatch := by
    intro derivedEtag stripped
    rw [RewriteProxy.finishHeaders.eq_def]
    cases derivedEtag with
    | none => exact ⟨rfl, rfl, rfl, rfl⟩
    | some etag =>
      simp only
      split
      · exact ⟨rfl, rfl, rfl, rfl⟩
      split <;> exact ⟨rfl, rfl, rfl, rfl⟩
  rw [RewriteProxy.responseFilter]
  split
  · exact ⟨rfl, rfl, rfl, rfl⟩
  split
  · exact ⟨rfl, rfl, rfl, rfl⟩
  split
  · exact ⟨rfl, rfl, rfl, rfl⟩
  split
  · exact ⟨rfl, rfl, rfl, rfl⟩
  split
  · exact ⟨rfl, rfl, rfl, rfl⟩
  split
  · exact ⟨rfl, rfl, rfl, rfl⟩
  · exact hfinish _ _

end KseRewriteProxy
