import KseRewriteProxy.Rewrite.ProxyIdempotence

/-!
# The `kubekey` rewrites run again

The legacy root of `kubekey` is replaced by the base path, at every place of a body. Whether one run
finishes depends on the base path alone:

* `idempotent_kubekeyAssetJs_iff`: in the assets, on whether the base path can be a part of the
  legacy root or hold it;
* `idempotent_namedProxyHtml_kubekey_iff`: in the HTML, where the attribute rules come first, also
  on whether a base path in the place of the legacy root can stand for the root of the proxy, or for
  what follows its first segment.

## One condition suffices, and each is needed

A base path that is `Apart` from the legacy root leaves none in any text, which is a fact about
passes (`Apart.not_infix_replaceFrom`). The other direction needs a body for each way of failing:
one in which the end of the inserted base path and the text behind it make a legacy root, and, for
the HTML, links whose values a second run prefixes again. These bodies are short, so that a run over
them succeeds whatever the limit of a machine size is.
-/

namespace KseRewriteProxy

open Text Text.Utf8 Streaming StreamingRewritePipeline

variable {codec : MetadataCodec} {url : UrlCrate} {basePath extension : Str}

/-! ### The legacy root -/

/-- The pass that replaces the legacy root. -/
def legacyStage (basePath : Str) : Stage :=
  exactStage (kubekeyLegacyRootRule basePath)

/-- The only slash of the legacy root is its first symbol. -/
theorem exists_kubekeyLegacyRoot_eq :
    ∃ t, kubekeyLegacyRoot.asBytes = 0x2F :: t ∧ 0x2F ∉ t :=
  ⟨kubekeyLegacyRoot.asBytes.tail, by decide, by decide⟩

theorem toNat_lt_of_mem_kubekeyLegacyRoot :
    ∀ b ∈ kubekeyLegacyRoot.asBytes, b.toNat < 0x80 := by
  decide +kernel

theorem headIn_basePath (hbase : IsBasePath url basePath) :
    HeadIn (· = 0x2F) basePath.asBytes := by
  obtain ⟨c, rest, rfl, -⟩ := hbase.exists_eq_cons
  exact ⟨0x2F, Str.asBytes (c :: rest), rfl, rfl⟩

/-- Unless it replaces the legacy root by itself, the pass keeps exactly the texts without it. -/
theorem legacyStage_apply_eq_self_iff (hne : basePath ≠ kubekeyLegacyRoot) {text : Bytes} :
    (legacyStage basePath).apply text = text ↔ ¬ kubekeyLegacyRoot.asBytes <:+: text :=
  replaceFrom_const_eq_self_iff (s := (kubekeyLegacyRootRule basePath).1) (encode_injective.ne hne)

theorem legacyStage_kubekeyLegacyRoot_apply (text : Bytes) :
    (legacyStage kubekeyLegacyRoot).apply text = text :=
  replaceFrom_const_toList (s := (kubekeyLegacyRootRule kubekeyLegacyRoot).1) [] text

/-- A base path that is apart from the legacy root leaves none behind. -/
theorem not_infix_legacyStage_apply (hbase : IsBasePath url basePath)
    (h : Apart kubekeyLegacyRoot.asBytes basePath.asBytes) (text : Bytes) :
    ¬ kubekeyLegacyRoot.asBytes <:+: (legacyStage basePath).apply text := by
  obtain ⟨t, hroot, ht⟩ := exists_kubekeyLegacyRoot_eq
  exact h.not_infix_replaceFrom (s := (kubekeyLegacyRootRule basePath).1) hroot ht
    (headIn_basePath hbase) [] text

/-- The stage is idempotent when the base path makes no new legacy root. -/
theorem legacyStage_apply_apply (hbase : IsBasePath url basePath)
    (h : basePath = kubekeyLegacyRoot ∨ Apart kubekeyLegacyRoot.asBytes basePath.asBytes)
    (text : Bytes) :
    (legacyStage basePath).apply ((legacyStage basePath).apply text) =
      (legacyStage basePath).apply text := by
  rcases h with rfl | hapart
  · exact legacyStage_kubekeyLegacyRoot_apply _
  · exact replaceFrom_of_not_isInfix (not_infix_legacyStage_apply hbase hapart text)

/-- A text that is apart from the legacy root is copied. -/
theorem legacyStage_apply_append {u : Bytes} (hu : Apart kubekeyLegacyRoot.asBytes u) (l : Bytes) :
    (legacyStage basePath).apply (u ++ l) = u ++ (legacyStage basePath).apply l := by
  have hcopied := Apart.replaceFrom_append (s := (kubekeyLegacyRootRule basePath).1)
    (f := fun _ _ ↦ basePath.asBytes) hu [] l
  refine hcopied.trans (congrArg (u ++ ·) ?_)
  exact replaceFrom_congr_seen fun _ _ ↦ rfl

/-- A legacy root in front is replaced. -/
theorem legacyStage_apply_toList_append {m : Bytes}
    (hm : ¬ kubekeyLegacyRoot.asBytes <:+: m) :
    (legacyStage basePath).apply (kubekeyLegacyRoot.asBytes ++ m) = basePath.asBytes ++ m :=
  replaceFrom_toList_append (s := (kubekeyLegacyRootRule basePath).1) hm []

/-! ### Small bodies -/

theorem length_asBytes_le (hbase : IsBasePath url basePath) : basePath.asBytes.length ≤ 4096 := by
  have hchars : ∀ s : Str, s.asBytes.length ≤ 4 * s.length := by
    intro s
    induction s with
    | nil => simp [Str.asBytes]
    | cons c s ih =>
      have hchar := String.length_utf8EncodeChar c
      have hsize := c.utf8Size_le_four
      show (String.utf8EncodeChar c ++ Str.asBytes s).length ≤ 4 * (c :: s).length
      rw [List.length_append, List.length_cons]
      omega
  have hlen := hbase.length_le
  have hmax : maxBasePathLength = 1024 := rfl
  have := hchars basePath
  omega

theorem le_usizeMax {n : ℕ} (h : n ≤ 9000) : n ≤ usizeMax :=
  h.trans (by decide)

theorem applyAll_eq_of_forall {stages : List Stage} {text : Bytes}
    (h : ∀ s ∈ stages, s.apply text = text) : applyAll stages text = text := by
  induction stages with
  | nil => rfl
  | cons s stages ih =>
    rw [applyAll_cons, h s List.mem_cons_self]
    exact ih fun t ht ↦ h t (List.mem_cons_of_mem _ ht)

/-- The output for a short body that all stages but the last keep. -/
theorem outputs_of_forall_apply_eq {profile : RewriteProfile} {stages : List Stage} {last : Stage}
    (hstages : responseStages codec profile basePath extension = stages ++ [last]) {body : Bytes}
    (hvalid : Valid body) (hkept : ∀ s ∈ stages, s.apply body = body)
    (hbody : body.length ≤ 9000) (hout : (last.apply body).length ≤ 9000) :
    Outputs codec profile basePath extension body (last.apply body) := by
  have hfits : FitsUsize (stages ++ [last]) body := by
    intro k
    rcases Nat.lt_or_ge stages.length k with hk | hk
    · have hle : (stages ++ [last]).length ≤ k := by
        rw [List.length_append, List.length_singleton]
        exact hk
      rw [List.take_of_length_le hle, applyAll_append, applyAll_eq_of_forall hkept]
      exact le_usizeMax hout
    · rw [List.take_append_of_le_length hk,
        applyAll_eq_of_forall fun s hs ↦ hkept s (List.mem_of_mem_take hs)]
      exact le_usizeMax hbody
  have houtputs := outputs_applyAll hvalid (hstages ▸ hfits)
  rw [hstages, applyAll_append, applyAll_eq_of_forall hkept] at houtputs
  exact houtputs

/-- **A base path that the legacy root can continue** is replaced again by a second run: the legacy
root in front of what completes the base path to it. -/
theorem not_idempotent_of_not_apart {profile : RewriteProfile} {stages : List Stage}
    (hstages : responseStages codec profile basePath extension = stages ++ [legacyStage basePath])
    (hbase : IsBasePath url basePath)
    (hkept : ∀ s ∈ stages, ∀ m, m <:+ kubekeyLegacyRoot.asBytes →
      s.apply (kubekeyLegacyRoot.asBytes ++ m) = kubekeyLegacyRoot.asBytes ++ m ∧
        s.apply (basePath.asBytes ++ m) = basePath.asBytes ++ m)
    (hne : basePath ≠ kubekeyLegacyRoot)
    (hapart : ¬ Apart kubekeyLegacyRoot.asBytes basePath.asBytes) :
    ¬ Idempotent codec profile basePath extension := by
  intro hidempotent
  obtain ⟨m, hm, hfirst, hagain⟩ :=
    exists_replaceFrom_of_not_apart (s := (kubekeyLegacyRootRule basePath).1) hapart
  have hout : (legacyStage basePath).apply (kubekeyLegacyRoot.asBytes ++ m) =
      basePath.asBytes ++ m := hfirst
  have hvalid : Valid (kubekeyLegacyRoot.asBytes ++ m) := by
    refine valid_of_ascii fun b hb ↦ toNat_lt_of_mem_kubekeyLegacyRoot b ?_
    exact (List.mem_append.1 hb).elim id fun hb ↦ hm.subset hb
  have hlenBase := length_asBytes_le hbase
  have hlenRoot : kubekeyLegacyRoot.asBytes.length = 37 := by decide
  have hlenRest : m.length ≤ kubekeyLegacyRoot.asBytes.length := hm.length_le
  have houtputs := outputs_of_forall_apply_eq hstages hvalid (fun s hs ↦ (hkept s hs m hm).1)
    (by rw [List.length_append]; omega) (by rw [hout, List.length_append]; omega)
  rw [hout] at houtputs
  have hstable := (hidempotent _ _ houtputs).applyAll_eq
    (le_usizeMax (by rw [List.length_append]; omega))
  rw [hstages, applyAll_append, applyAll_eq_of_forall fun s hs ↦ (hkept s hs m hm).2] at hstable
  exact (legacyStage_apply_eq_self_iff hne).1 hstable hagain

/-! ### The assets -/

/-- **When the rewrite of the `kubekey` assets is idempotent**: the base path is the legacy root, or
it neither contains it nor ends with a beginning of it. -/
theorem idempotent_kubekeyAssetJs_iff (codec : MetadataCodec) (hbase : IsBasePath url basePath)
    (extension : Str) : Idempotent codec .kubekeyAssetJs basePath extension ↔
      basePath = kubekeyLegacyRoot ∨ Apart kubekeyLegacyRoot.asBytes basePath.asBytes := by
  have hstages : responseStages codec .kubekeyAssetJs basePath extension =
      [] ++ [legacyStage basePath] := rfl
  constructor
  · intro hidempotent
    by_contra hnot
    obtain ⟨hne, hapart⟩ := not_or.1 hnot
    exact not_idempotent_of_not_apart hstages hbase (by simp) hne hapart hidempotent
  · intro h body out hout
    obtain ⟨hvalid, happly⟩ := hout.valid_and_applyAll
    have hvalidOut : Valid out := happly ▸ valid_applyAll
      (keepsValid_of_mem codec (by simp) basePath extension) hvalid
    refine stable_of_forall_apply_eq hvalidOut ?_
    rw [hstages] at happly ⊢
    intro s hs
    obtain rfl := List.mem_singleton.1 hs
    rw [← happly]
    exact legacyStage_apply_apply hbase h body

/-- A base path below a region, and one that begins the legacy root. -/
theorem idempotent_kubekeyAssetJs_iff_region :
    Idempotent .empty .kubekeyAssetJs (str "/regions/r1") kubekeyName ∧
      ¬ Idempotent .empty .kubekeyAssetJs (str "/5") kubekeyName := by
  have hdigit : IsBasePath .unreserved (str "/5") :=
    ⟨⟨str "/5/", by decide +kernel⟩, by decide⟩
  constructor
  · exact (idempotent_kubekeyAssetJs_iff .empty isBasePath_unreserved kubekeyName).2 (by decide)
  · rw [idempotent_kubekeyAssetJs_iff .empty hdigit kubekeyName]
    decide

/-! ### The HTML: no value to prefix appears -/

/-- The texts that the base path must not stand for: the root of the proxy, and what follows its
first segment. -/
def kubekeyRoots : List Bytes :=
  [proxyRoot kubekeyName, bytes "/kubekey/"]

/-- One text begins the other. -/
def Comparable (u v : Bytes) : Prop :=
  u <+: v ∨ v <+: u

instance (u v : Bytes) : Decidable (Comparable u v) :=
  inferInstanceAs (Decidable (_ ∨ _))

/-- A base path that neither begins nor is begun by the root of the proxy does not make it
appear. -/
theorem isPrefix_of_isPrefix_legacyStage (hbase : IsBasePath url basePath)
    (hroots : ∀ root ∈ kubekeyRoots, ¬ Comparable root basePath.asBytes) {seen l : Bytes}
    (h : proxyRoot kubekeyName <+:
      replaceFrom (kubekeyLegacyRootRule basePath).1 (fun _ _ ↦ basePath.asBytes) seen l) :
    proxyRoot kubekeyName <+: l := by
  obtain ⟨t, hroot, -⟩ := exists_kubekeyLegacyRoot_eq
  have hhead := headIn_basePath hbase
  have hsegments : proxyRoot kubekeyName =
      0x2F :: (bytes "proxy" ++ 0x2F :: (bytes "kubekey" ++ bytes "/")) := by decide
  have hbehind : bytes "/kubekey/" = 0x2F :: (bytes "kubekey" ++ bytes "/") := by decide
  have hfirst := hroots (proxyRoot kubekeyName) List.mem_cons_self
  have hsecond := hroots (bytes "/kubekey/") (List.mem_cons_of_mem _ List.mem_cons_self)
  rw [hsegments] at h hfirst ⊢
  rw [hbehind] at hsecond
  -- one segment of the root after the other, and the slash behind them
  obtain ⟨l, seen, rfl, hrest⟩ := exists_of_cons_append_isPrefix_replaceFrom
    (s := (kubekeyLegacyRootRule basePath).1) hroot hhead (by decide)
    (fun hle ↦ hfirst (Or.inl hle)) (fun hle ↦ hfirst (Or.inr hle)) h
  obtain ⟨l, seen, rfl, hlast⟩ := exists_of_cons_append_isPrefix_replaceFrom
    (s := (kubekeyLegacyRootRule basePath).1) hroot hhead (by decide)
    (fun hle ↦ hsecond (Or.inl hle)) (fun hle ↦ hsecond (Or.inr hle)) hrest
  have hslash := (concat_prefix_replaceFrom_iff (s := (kubekeyLegacyRootRule basePath).1) (w := [])
    ⟨0x2F, t, hroot, rfl⟩ (fun _ _ ↦ hhead) List.not_mem_nil seen l).1 hlast
  rw [List.cons_prefix_cons, List.prefix_append_right_inj, List.cons_prefix_cons,
    List.prefix_append_right_inj]
  exact ⟨rfl, rfl, hslash⟩

/-- **Replacing the legacy root makes no value to prefix appear** then. -/
theorem not_hasRootedValue_legacyStage (hurl : url.Encodes ' ') (hbase : IsBasePath url basePath)
    (hroots : ∀ root ∈ kubekeyRoots, ¬ Comparable root basePath.asBytes) {text : Bytes}
    (h : ¬ HasRootedValue kubekeyName text) :
    ¬ HasRootedValue kubekeyName ((legacyStage basePath).apply text) := by
  obtain ⟨t, hroot, -⟩ := exists_kubekeyLegacyRoot_eq
  have hhead := headIn_basePath hbase
  have hspace := free_asBytes (hbase.free_isHtmlWhitespace hurl)
  rintro ⟨key, hkey, hinside⟩
  refine h ⟨key, hkey, ?_⟩
  obtain ⟨hboundary, hattr⟩ := mem_attributeKeys_iff.1 hkey
  have hslash : ∀ attr ∈ htmlAttributes, (0x2F : UInt8) ∉ attr := by decide
  suffices hkept : ∀ text seen, (keyNeedle (proxyRoot kubekeyName) key).toList <:+:
      replaceFrom (kubekeyLegacyRootRule basePath).1 (fun _ _ ↦ basePath.asBytes) seen text →
        (keyNeedle (proxyRoot kubekeyName) key).toList <:+: text from hkept text [] hinside
  intro text seen hinside
  show key.1 :: (key.2 ++ proxyRoot kubekeyName) <:+: text
  replace hinside : key.1 :: (key.2 ++ proxyRoot kubekeyName) <:+: _ := hinside
  induction text using (kubekeyLegacyRootRule basePath).1.induction generalizing seen with
  | nil => rwa [replaceFrom_nil] at hinside
  | occurrence after ih =>
    rw [replaceFrom_match,
      infix_append_iff_of_not_mem fun hmem ↦ hspace _ hmem hboundary] at hinside
    exact (ih _ hinside).trans (List.suffix_append _ after).isInfix
  | copy a rest hnot ih =>
    rw [replaceFrom_cons hnot] at hinside
    rcases List.infix_cons_iff.1 hinside with hstart | hrest
    · obtain ⟨rfl, hvalue⟩ := List.cons_prefix_cons.1 hstart
      obtain ⟨l, rfl, hprefix⟩ :=
        (append_isPrefix_replaceFrom_iff hroot hhead (hslash _ hattr)).1 hvalue
      have hvalue := isPrefix_of_isPrefix_legacyStage hbase hroots hprefix
      have hall := (List.prefix_append_right_inj key.2).2 hvalue
      exact (List.cons_prefix_cons.2 ⟨rfl, hall⟩).isInfix
    · exact (ih _ hrest).trans (List.suffix_cons a rest).isInfix

/-! ### The HTML: one link -/

/-- A link, up to what follows its value. -/
def link (value : Bytes) : Bytes :=
  0x20 :: (bytes "href=\"" ++ value)

theorem length_link (value : Bytes) : (link value).length = value.length + 7 := by
  have hattr : (bytes "href=\"").length = 6 := by decide
  rw [link, List.length_cons, List.length_append, hattr]
  omega

theorem link_eq_join (value : Bytes) :
    link value = [] ++ join [((0x20 : UInt8), bytes "href=\"" ++ value)] := by
  simp [link, join]

theorem segmented_link {value : Bytes} (hvalue : Free IsHtmlBoundary value) :
    Segmented IsHtmlBoundary [((0x20 : UInt8), bytes "href=\"" ++ value)] := by
  have hspace : IsHtmlBoundary 0x20 := by decide
  refine segmented_cons.2 ⟨⟨hspace, free_append.2 ⟨by decide, hvalue⟩⟩, ?_⟩
  exact fun s hs ↦ absurd hs List.not_mem_nil

theorem mem_attributeKeys_href : ((0x20 : UInt8), bytes "href=\"") ∈ attributeKeys := by
  decide

/-- A link is rooted exactly if its value begins with the root. -/
theorem hasRootedValue_link_iff (hextension : Free IsHtmlWhitespace extension) {value : Bytes}
    (hvalue : Free IsHtmlBoundary value) :
    HasRootedValue extension (link value) ↔ proxyRoot extension <+: value := by
  rw [HasRootedValue, link_eq_join, hasKey_append_join_iff areKeys_attributeKeys
    (free_proxyRoot hextension) (fun _ h ↦ absurd h List.not_mem_nil) (segmented_link hvalue)]
  constructor
  · rintro ⟨s, hs, w, hw, hprefix⟩
    obtain rfl := List.mem_singleton.1 hs
    obtain rfl : w = bytes "href=\"" := areKeys_attributeKeys.eq_of_isPrefix_of_isPrefix hw
      mem_attributeKeys_href ((List.prefix_append w _).trans hprefix) (List.prefix_append _ value)
    exact (List.prefix_append_right_inj _).1 hprefix
  · intro hprefix
    exact ⟨_, List.mem_cons_self, bytes "href=\"", mem_attributeKeys_href,
      (List.prefix_append_right_inj _).2 hprefix⟩

/-- The attribute rules insert the base path in front of the root. -/
theorem applyAll_htmlRules_link (hbase : Free IsHtmlWhitespace basePath)
    (hextension : Free IsHtmlWhitespace extension) {value : Bytes}
    (hvalue : Free IsHtmlBoundary value) (h : proxyRoot extension <+: value) :
    applyAll ((htmlRules basePath extension).map exactStage) (link value) =
      link (basePath.asBytes ++ value) := by
  have hpasses : applyAll ((htmlRules basePath extension).map exactStage) (link value) =
      attributeKeys.foldl (insertPass (proxyRoot extension) basePath.asBytes) (link value) := by
    rw [map_exactStage_htmlRules, applyAll, List.foldl_map]
    rfl
  obtain ⟨rest, rfl⟩ := h
  rw [hpasses, link_eq_join, foldl_insertPass_join areKeys_attributeKeys.delimiter
    (free_proxyRoot hextension) (free_asBytes hbase) (fun _ h ↦ absurd h List.not_mem_nil)
    (segmented_link hvalue), List.map_singleton,
    areKeys_attributeKeys.stepAll_of_mem mem_attributeKeys_href, link_eq_join]

/-! ### The HTML: running again -/

theorem free_kubekeyName : Free IsHtmlWhitespace kubekeyName := by
  decide

/-- The stages for `kubekey` are the attribute rules and then the legacy root. -/
theorem responseStages_kubekey :
    responseStages codec .namedProxyHtml basePath kubekeyName =
      (htmlRules basePath kubekeyName).map exactStage ++ [legacyStage basePath] := by
  show (namedProxyRules basePath kubekeyName).map exactStage = _
  rw [namedProxyRules, if_pos rfl, List.map_append]
  rfl

/-- A text without whitespace has no attribute. -/
theorem not_hasRootedValue_of_free {text : Bytes} (h : Free IsHtmlBoundary text) :
    ¬ HasRootedValue extension text := by
  rintro ⟨key, hkey, hinside⟩
  exact h key.1 (hinside.subset List.mem_cons_self) (mem_attributeKeys_iff.1 hkey).1

/-- What stands in front of each of the roots in the root of the proxy. -/
theorem exists_proxyRoot_eq_append : ∀ root ∈ kubekeyRoots,
    ∃ u ∈ [[], bytes "/proxy"], proxyRoot kubekeyName = u ++ root := by
  decide

/-- Inside a link the stage works on the value. -/
theorem legacyStage_apply_link (value : Bytes) :
    (legacyStage basePath).apply (link value) = link ((legacyStage basePath).apply value) :=
  legacyStage_apply_append (u := 0x20 :: bytes "href=\"") (by decide) value

theorem free_kubekeyLegacyRoot : Free IsHtmlBoundary kubekeyLegacyRoot.asBytes := by
  decide

/-- The texts in front of the roots are short, and apart from the legacy root. -/
theorem properties_of_mem_heads : ∀ u ∈ [[], bytes "/proxy"],
    Apart kubekeyLegacyRoot.asBytes u ∧ Free IsHtmlBoundary u ∧ u.length ≤ 6 ∧
      ∀ b ∈ u, b.toNat < 0x80 := by
  decide +kernel

/-- So are the roots. -/
theorem properties_of_mem_kubekeyRoots : ∀ root ∈ kubekeyRoots,
    ¬ kubekeyLegacyRoot.asBytes <:+: root ∧ Free IsHtmlBoundary root ∧ root.length ≤ 15 ∧
      ∀ b ∈ root, b.toNat < 0x80 := by
  decide +kernel

/-- The legacy root neither begins nor is begun by a root of the proxy. -/
theorem not_comparable_kubekeyLegacyRoot : ∀ root ∈ kubekeyRoots,
    ¬ Comparable root kubekeyLegacyRoot.asBytes := by
  decide

/-- **A base path that stands for one of the roots** is prefixed by a second run: the first one puts
it in the place of the legacy root, behind the quote of an attribute. -/
theorem not_idempotent_of_comparable (codec : MetadataCodec) (hurl : url.Encodes ' ')
    (hbase : IsBasePath url basePath)
    (hapart : Apart kubekeyLegacyRoot.asBytes basePath.asBytes) {root : Bytes}
    (hroot : root ∈ kubekeyRoots) (hcomparable : Comparable root basePath.asBytes) :
    ¬ Idempotent codec .namedProxyHtml basePath kubekeyName := by
  intro hidempotent
  have hspace := hbase.free_isHtmlWhitespace hurl
  have hfreeBase := free_asBytes hspace
  obtain ⟨u, hu, hproxy⟩ := exists_proxyRoot_eq_append root hroot
  obtain ⟨m, hm, hcompleted⟩ : ∃ m, m <:+ root ∧ root <+: basePath.asBytes ++ m := by
    rcases hcomparable with hle | ⟨m, rfl⟩
    · exact ⟨[], List.nil_suffix, hle.trans (List.prefix_append _ _)⟩
    · exact ⟨m, List.suffix_append _ m, List.prefix_refl _⟩
  obtain ⟨hapartHead, hfreeHead, hlenHead, hasciiHead⟩ := properties_of_mem_heads u hu
  obtain ⟨hnot, hfreeRoot, hlenRoot, hasciiRoot⟩ := properties_of_mem_kubekeyRoots root hroot
  have hm' : ¬ kubekeyLegacyRoot.asBytes <:+: m := fun h ↦ hnot (h.trans hm.isInfix)
  have hfreeRest : Free IsHtmlBoundary m := fun a ha ↦ hfreeRoot a (hm.subset ha)
  have hlenRest := hm.length_le
  have hlenBase := length_asBytes_le hbase
  have hlenLegacy : kubekeyLegacyRoot.asBytes.length = 37 := by decide
  -- the first run finds no attribute value to prefix
  have hfreeBody : Free IsHtmlBoundary (u ++ (kubekeyLegacyRoot.asBytes ++ m)) :=
    free_append.2 ⟨hfreeHead, free_append.2 ⟨free_kubekeyLegacyRoot, hfreeRest⟩⟩
  have hnone : ¬ HasRootedValue kubekeyName (link (u ++ (kubekeyLegacyRoot.asBytes ++ m))) := by
    rw [hasRootedValue_link_iff free_kubekeyName hfreeBody, hproxy, List.prefix_append_right_inj]
    intro hprefix
    exact not_comparable_kubekeyLegacyRoot root hroot
      (List.prefix_or_prefix_of_prefix hprefix (List.prefix_append _ m))
  have hkept := (applyAll_eq_self_iff (grows_htmlRules (asBytes_ne_nil hbase))).1
    ((applyAll_htmlRules_eq_self_iff (asBytes_ne_nil hbase)).2 hnone)
  have hfirst : (legacyStage basePath).apply (link (u ++ (kubekeyLegacyRoot.asBytes ++ m))) =
      link (u ++ (basePath.asBytes ++ m)) := by
    rw [legacyStage_apply_link, legacyStage_apply_append hapartHead,
      legacyStage_apply_toList_append hm']
  have hvalid : Valid (link (u ++ (kubekeyLegacyRoot.asBytes ++ m))) := by
    have hascii : Valid (u ++ (kubekeyLegacyRoot.asBytes ++ m)) :=
      (valid_of_ascii hasciiHead).append ((valid_of_ascii toNat_lt_of_mem_kubekeyLegacyRoot).append
        (valid_of_ascii fun b hb ↦ hasciiRoot b (hm.subset hb)))
    exact valid_cons_of_ascii (by decide) ((valid_bytes _).append hascii)
  have hstages : responseStages codec .namedProxyHtml basePath kubekeyName = _ :=
    responseStages_kubekey
  have houtputs := outputs_of_forall_apply_eq hstages hvalid hkept
    (by simp only [length_link, List.length_append]; omega)
    (by simp only [hfirst, length_link, List.length_append]; omega)
  rw [hfirst] at houtputs
  -- the second run finds one, and makes the text longer
  have hfreeOut : Free IsHtmlBoundary (u ++ (basePath.asBytes ++ m)) :=
    free_append.2 ⟨hfreeHead, free_append.2 ⟨hfreeBase, hfreeRest⟩⟩
  have hprefixed : proxyRoot kubekeyName <+: u ++ (basePath.asBytes ++ m) := by
    rw [hproxy, List.prefix_append_right_inj]
    exact hcompleted
  have hagain := (hidempotent _ _ houtputs).applyAll_eq
    (le_usizeMax (by simp only [length_link, List.length_append]; omega))
  rw [hstages, applyAll_append,
    applyAll_htmlRules_link hspace free_kubekeyName hfreeOut hprefixed] at hagain
  have hcopied : (legacyStage basePath).apply
      (link (basePath.asBytes ++ (u ++ (basePath.asBytes ++ m)))) =
        link (basePath.asBytes ++ (u ++ (basePath.asBytes ++ m))) := by
    have hrest : (legacyStage basePath).apply m = m := replaceFrom_of_not_isInfix hm'
    rw [legacyStage_apply_link, legacyStage_apply_append hapart,
      legacyStage_apply_append hapartHead, legacyStage_apply_append hapart, hrest]
  have hlen := congrArg List.length (hcopied.symm.trans hagain)
  have hpos := List.length_pos_iff.2 (asBytes_ne_nil hbase)
  rw [length_link, length_link, List.length_append] at hlen
  omega

/-- **When the rewrite of the `kubekey` HTML is idempotent**: the base path is the legacy root, or
it is apart from the legacy root and stands for none of the roots. -/
theorem idempotent_namedProxyHtml_kubekey_iff (codec : MetadataCodec) (hurl : url.Encodes ' ')
    (hbase : IsBasePath url basePath) :
    Idempotent codec .namedProxyHtml basePath kubekeyName ↔
      basePath = kubekeyLegacyRoot ∨
        Apart kubekeyLegacyRoot.asBytes basePath.asBytes ∧
          ∀ root ∈ kubekeyRoots, ¬ Comparable root basePath.asBytes := by
  have hspace := hbase.free_isHtmlWhitespace hurl
  have hne := asBytes_ne_nil hbase
  constructor
  · intro hidempotent
    by_contra hnot
    obtain ⟨hother, hnot⟩ := not_or.1 hnot
    by_cases hapart : Apart kubekeyLegacyRoot.asBytes basePath.asBytes
    · refine hnot ⟨hapart, fun root hroot hcomparable ↦ ?_⟩
      exact not_idempotent_of_comparable codec hurl hbase hapart hroot hcomparable hidempotent
    · refine not_idempotent_of_not_apart responseStages_kubekey hbase (fun s hs m hm ↦ ?_) hother
        hapart hidempotent
      -- without whitespace there is no attribute
      have hkept : ∀ {text}, Free IsHtmlBoundary text → s.apply text = text := fun hfree ↦
        (applyAll_eq_self_iff (grows_htmlRules hne)).1
          ((applyAll_htmlRules_eq_self_iff hne).2 (not_hasRootedValue_of_free hfree)) s hs
      have hrest : Free IsHtmlBoundary m := fun a ha ↦ free_kubekeyLegacyRoot a (hm.subset ha)
      exact ⟨hkept (free_append.2 ⟨free_kubekeyLegacyRoot, hrest⟩),
        hkept (free_append.2 ⟨free_asBytes hspace, hrest⟩)⟩
  · intro h body out hout
    obtain ⟨hvalid, happly⟩ := hout.valid_and_applyAll
    have hvalidOut : Valid out := happly ▸ valid_applyAll
      (keepsValid_of_mem codec (by simp) basePath kubekeyName) hvalid
    rw [responseStages_kubekey, applyAll_append] at happly
    -- the root does not begin at an inserted base path
    have hroots : ¬ proxyRoot kubekeyName <+: basePath.asBytes ++ proxyRoot kubekeyName := by
      rcases h with rfl | ⟨-, hroots⟩
      · decide
      · exact fun hprefix ↦ hroots _ List.mem_cons_self
          (List.prefix_or_prefix_of_prefix hprefix (List.prefix_append _ _))
    have hrules : ¬ HasRootedValue kubekeyName
        (applyAll ((htmlRules basePath kubekeyName).map exactStage) body) := by
      rw [hasRootedValue_applyAll_htmlRules_iff hspace free_kubekeyName]
      exact fun hvalue ↦ hroots hvalue.2
    have hnone : ¬ HasRootedValue kubekeyName out := by
      rw [← happly]
      show ¬ HasRootedValue kubekeyName ((legacyStage basePath).apply _)
      rcases h with rfl | ⟨-, happear⟩
      · rwa [legacyStage_kubekeyLegacyRoot_apply]
      · exact not_hasRootedValue_legacyStage hurl hbase happear hrules
    refine stable_of_forall_apply_eq hvalidOut ?_
    rw [responseStages_kubekey, List.forall_mem_append, List.forall_mem_singleton]
    refine ⟨(applyAll_eq_self_iff (grows_htmlRules hne)).1
      ((applyAll_htmlRules_eq_self_iff hne).2 hnone), ?_⟩
    rw [← happly]
    exact legacyStage_apply_apply hbase (h.imp_right And.left) _

/-- A base path below a region, and one that is the name of the proxy. -/
theorem idempotent_namedProxyHtml_kubekey_iff_region :
    Idempotent .empty .namedProxyHtml (str "/regions/r1") kubekeyName ∧
      ¬ Idempotent .empty .namedProxyHtml (str "/kubekey") kubekeyName := by
  have hurl : UrlCrate.unreserved.Encodes ' ' := UrlCrate.unreserved_encodes (by decide)
  have hname : IsBasePath .unreserved (str "/kubekey") :=
    ⟨⟨str "/kubekey/", by decide +kernel⟩, by decide⟩
  constructor
  · exact (idempotent_namedProxyHtml_kubekey_iff .empty hurl isBasePath_unreserved).2 (by decide)
  · rw [idempotent_namedProxyHtml_kubekey_iff .empty hurl hname]
    decide

end KseRewriteProxy
