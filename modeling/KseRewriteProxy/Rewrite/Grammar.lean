import KseRewriteProxy.Rewrite.Policy
import KseRewriteProxy.Text.Utf8

/-!
# The path grammar of the rewrite policy

`Grammar` says declaratively which paths are rewritten, with which profile and which extension: one
production for each of the three roots, over the configured sets and rules. The main theorem
`PolicyConfig.decide_policy` says that `RewritePolicy::decide` accepts exactly this grammar.

## What the productions are made of

`IsExtensionName` and `IsTextFile` are written from the documentation, as rules about characters and
as a list of endings. They are connected to the checks of the code by `isSafeExtensionName_iff` and
`isTextAsset_iff`: the code counts bytes where the grammar counts characters, and it takes the last
segment of a path before it looks at the ending.

## Why the parser is right

The code parses with a chain of prefix checks and leftmost splits. A split is right because the
name before the separator contains no slash (`IsExtensionName.not_mem_slash`), and the
fall-through between the roots never matters because a path lies below one root only: the three
roots differ in their first character. So each production is compared with its part of the code by
itself, and the parts are put together at the end.
-/

namespace KseRewriteProxy

open Text

/-! ### The grammar -/

/-- An ASCII letter or digit. -/
def IsAlphanumeric (c : Char) : Prop :=
  'A' ≤ c ∧ c ≤ 'Z' ∨ 'a' ≤ c ∧ c ≤ 'z' ∨ '0' ≤ c ∧ c ≤ '9'

/-- A character that may stand in the name of an extension. -/
def IsNameChar (c : Char) : Prop :=
  IsAlphanumeric c ∨ c = '.' ∨ c = '_' ∨ c = '-'

/-- The names of extensions, `[A-Za-z0-9][A-Za-z0-9._-]{0,127}`. -/
def IsExtensionName (name : Str) : Prop :=
  ∃ first rest, name = first :: rest ∧ IsAlphanumeric first ∧ rest.length ≤ 127 ∧
    ∀ c ∈ rest, IsNameChar c

/-- The files whose names end like those of scripts, styles, data and pages. -/
def IsTextFile (file : Str) : Prop :=
  str ".js" <:+ file ∨ str ".mjs" <:+ file ∨ str ".css" <:+ file ∨ str ".json" <:+ file ∨
    str ".html" <:+ file ∨ str ".htm" <:+ file

/-- What a policy is configured with: the base path, the extension sets and the rules. -/
structure PolicyConfig where
  basePath : Str
  enabledExtensions : List Str
  disabledExtensions : List Str
  enabledRules : List RewriteRule

namespace PolicyConfig

variable (config : PolicyConfig)

/-- The base path without its trailing slashes. -/
def root : Str :=
  trimEndMatches (· == '/') config.basePath

/-- An extension that may be rewritten. The enabled set `{"*"}` enables every name. -/
def Enables (extension : Str) : Prop :=
  IsExtensionName extension ∧ extension ∉ config.disabledExtensions ∧
    (extension ∈ config.enabledExtensions ∨
      ∀ e, e ∈ config.enabledExtensions ↔ e = allExtensionsWildcard)

/-- Paths below `proxy`. -/
def NamedProxy (path : Str) (profile : RewriteProfile) (extension : Str) : Prop :=
  ∃ rest, path = config.root ++ str "/proxy/" ++ extension ++ '/' :: rest ∧
    extension ≠ [] ∧ '/' ∉ extension ∧
    ((extension = str "ys1000" ∧ .ys1000Html ∈ config.enabledRules ∧ profile = .ys1000Html) ∨
      (extension = str "ys1000" ∧ .ys1000Html ∉ config.enabledRules ∧
        .namedProxyHtml ∈ config.enabledRules ∧ profile = .namedProxyHtml) ∨
      (extension = str "kubekey" ∧ str "assets/" <+: rest ∧ str ".js" <:+ rest ∧
        .kubekeyAssetJs ∈ config.enabledRules ∧ profile = .kubekeyAssetJs) ∨
      (extension ≠ str "ys1000" ∧ ¬ str ".js" <:+ rest ∧
        .namedProxyHtml ∈ config.enabledRules ∧ profile = .namedProxyHtml))

/-- Paths below `jsbundles`: the distribution has the name of the extension, with or without its
suffix `-frontend`. -/
def Jsbundle (path : Str) (profile : RewriteProfile) (extension : Str) : Prop :=
  ∃ distribution file,
    path = config.root ++ str "/jsbundles/" ++ extension ++ str "/dist/" ++ distribution ++
      '/' :: file ∧
    '/' ∉ file ∧ str ".js" <:+ file ∧ config.Enables extension ∧
    (distribution = extension ∨ extension = distribution ++ str "-frontend") ∧
    ((str "-frontend" <:+ extension ∧ file = str "index.js" ∧
        .frontendIndexJsBundle ∈ config.enabledRules ∧
        profile = if extension = str "ys1000-frontend" ∧ distribution = str "ys1000-frontend"
          then .ys1000FrontendIndexJsBundle else .frontendIndexJsBundle) ∨
      (¬ (str "-frontend" <:+ extension ∧ file = str "index.js" ∧
          .frontendIndexJsBundle ∈ config.enabledRules) ∧
        .jsBundle ∈ config.enabledRules ∧ profile = .jsBundle))

/-- Paths below `extensions-static`. -/
def Static (path : Str) (profile : RewriteProfile) (extension : Str) : Prop :=
  ∃ asset,
    path = config.root ++ str "/extensions-static/" ++ extension ++ str "/dist/v3dist/" ++
      asset ∧
    config.Enables extension ∧ IsTextFile asset ∧ .consoleV3 ∈ config.enabledRules ∧
    profile = .consoleV3

/-- The paths that are rewritten, with the profile and the extension. -/
def Grammar (path : Str) (profile : RewriteProfile) (extension : Str) : Prop :=
  config.NamedProxy path profile extension ∨ config.Jsbundle path profile extension ∨
    config.Static path profile extension

/-- The policy of a configuration. -/
def policy : RewritePolicy :=
  RewritePolicy.newWithRules config.basePath config.enabledExtensions config.disabledExtensions
    config.enabledRules

end PolicyConfig

/-! ### Names -/

theorem mem_asBytes_of_mem {c : Char} {s : Str} (h : c ∈ s) {b : UInt8}
    (hb : b ∈ String.utf8EncodeChar c) : b ∈ s.asBytes :=
  List.mem_flatMap.2 ⟨c, h, hb⟩

/-- A byte is alphanumeric exactly if its character is. -/
theorem isAsciiAlphanumeric_iff {c : Char} {byte : UInt8} (h : byte.toNat = c.toNat) :
    isAsciiAlphanumeric byte = true ↔ IsAlphanumeric c := by
  have hle : ∀ d e : Char, d ≤ e ↔ d.toNat ≤ e.toNat := fun _ _ ↦ Iff.rfl
  simp only [isAsciiAlphanumeric, IsAlphanumeric, Bool.or_eq_true, Bool.and_eq_true,
    decide_eq_true_eq, UInt8.le_iff_toNat_le, hle, h]
  constructor
  · rintro ((hdigit | hupper) | hlower)
    · exact Or.inr (Or.inr hdigit)
    · exact Or.inl hupper
    · exact Or.inr (Or.inl hlower)
  · rintro (hupper | hlower | hdigit)
    · exact Or.inl (Or.inr hupper)
    · exact Or.inr hlower
    · exact Or.inl (Or.inl hdigit)

theorem IsNameChar.toNat_lt {c : Char} (h : IsNameChar c) : c.toNat < 0x80 := by
  have hle : ∀ d e : Char, d ≤ e ↔ d.toNat ≤ e.toNat := fun _ _ ↦ Iff.rfl
  rcases h with (⟨-, h⟩ | ⟨-, h⟩ | ⟨-, h⟩) | rfl | rfl | rfl
  · exact lt_of_le_of_lt ((hle _ _).1 h) (by decide)
  · exact lt_of_le_of_lt ((hle _ _).1 h) (by decide)
  · exact lt_of_le_of_lt ((hle _ _).1 h) (by decide)
  all_goals decide

/-- **The rule for the bytes of a name is a rule for its characters**: the bytes of other characters
are above the ASCII range. -/
theorem isNameByte_iff {c : Char} {byte : UInt8} (h : byte ∈ String.utf8EncodeChar c) :
    (isAsciiAlphanumeric byte || byte == 0x2D || byte == 0x5F || byte == 0x2E) = true ↔
      IsNameChar c := by
  rcases Utf8.toNat_of_mem_utf8EncodeChar h with ⟨-, -, hbyte⟩ | ⟨hchar, hbyte⟩
  · have heq : ∀ d : Char, ∀ n : UInt8, n.toNat = d.toNat → (byte = n ↔ c = d) := by
      intro d n hn
      rw [← UInt8.toNat_inj, hn, hbyte, Char.toNat_inj]
    simp only [Bool.or_eq_true, beq_iff_eq, isAsciiAlphanumeric_iff hbyte, IsNameChar,
      heq '-' 0x2D rfl, heq '_' 0x5F rfl, heq '.' 0x2E rfl]
    constructor
    · rintro (((h | h) | h) | h)
      exacts [Or.inl h, Or.inr (Or.inr (Or.inr h)), Or.inr (Or.inr (Or.inl h)),
        Or.inr (Or.inl h)]
    · rintro (h | h | h | h)
      exacts [Or.inl (Or.inl (Or.inl h)), Or.inr h, Or.inl (Or.inr h), Or.inl (Or.inl (Or.inr h))]
  · refine iff_of_false (fun hallowed ↦ ?_) fun hname ↦ absurd hname.toNat_lt (by omega)
    simp only [isAsciiAlphanumeric, Bool.or_eq_true, Bool.and_eq_true, decide_eq_true_eq,
      beq_iff_eq, UInt8.le_iff_toNat_le, ← UInt8.toNat_inj] at hallowed
    rcases hallowed with ((((⟨-, h⟩ | ⟨-, h⟩) | ⟨-, h⟩) | h) | h) | h
    · exact absurd (hbyte.trans h) (by decide)
    · exact absurd (hbyte.trans h) (by decide)
    · exact absurd (hbyte.trans h) (by decide)
    all_goals exact absurd (hbyte.trans_eq h) (by decide)

theorem utf8EncodeChar_of_isNameChar {c : Char} (h : IsNameChar c) :
    ∃ byte, String.utf8EncodeChar c = [byte] := by
  obtain ⟨byte, hbyte⟩ := List.exists_mem_of_ne_nil _ (String.utf8EncodeChar_ne_nil (c := c))
  rcases Utf8.toNat_of_mem_utf8EncodeChar hbyte with ⟨-, heq, -⟩ | ⟨hchar, -⟩
  · exact ⟨byte, heq⟩
  · exact absurd h.toNat_lt (by omega)

/-- A name has as many bytes as characters. -/
theorem length_asBytes_of_isNameChar {name : Str} (h : ∀ c ∈ name, IsNameChar c) :
    name.asBytes.length = name.length := by
  induction name with
  | nil => rfl
  | cons c rest ih =>
    obtain ⟨hfirst, hrest⟩ := List.forall_mem_cons.1 h
    obtain ⟨byte, hbyte⟩ := utf8EncodeChar_of_isNameChar hfirst
    show (String.utf8EncodeChar c ++ Str.asBytes rest).length = _
    rw [hbyte, List.length_append, ih hrest, List.length_singleton, List.length_cons, Nat.add_comm]

/-- **The rule for names is the same** on bytes, as the code checks it, and on characters. -/
theorem isSafeExtensionName_iff {name : Str} :
    isSafeExtensionName name = true ↔ IsExtensionName name := by
  have hall : (name.asBytes.all fun byte ↦
      isAsciiAlphanumeric byte || byte == 0x2D || byte == 0x5F || byte == 0x2E) = true ↔
        ∀ c ∈ name, IsNameChar c := by
    rw [List.all_eq_true]
    constructor
    · intro h c hc
      obtain ⟨byte, hbyte⟩ := List.exists_mem_of_ne_nil _ (String.utf8EncodeChar_ne_nil (c := c))
      exact (isNameByte_iff hbyte).1 (h byte (mem_asBytes_of_mem hc hbyte))
    · intro h byte hbyte
      obtain ⟨c, hc, hmem⟩ := List.mem_flatMap.1 hbyte
      exact (isNameByte_iff hmem).2 (h c hc)
  cases name with
  | nil =>
    refine iff_of_false (by decide) ?_
    rintro ⟨first, rest, h, -⟩
    exact List.cons_ne_nil _ _ h.symm
  | cons first rest =>
    obtain ⟨byte, hbyte⟩ := List.exists_cons_of_ne_nil (String.utf8EncodeChar_ne_nil (c := first))
    obtain ⟨bytes, hbytes⟩ := hbyte
    have hhead : (Str.asBytes (first :: rest)).head? = some byte := by
      show (String.utf8EncodeChar first ++ Str.asBytes rest).head? = _
      rw [hbytes]
      rfl
    simp only [isSafeExtensionName, Bool.and_eq_true, hall, decide_eq_true_eq, hhead]
    constructor
    · rintro ⟨⟨⟨-, hlength⟩, hname⟩, hfirst⟩
      obtain ⟨hfirstName, hrest⟩ := List.forall_mem_cons.1 hname
      rw [length_asBytes_of_isNameChar hname, List.length_cons] at hlength
      rcases Utf8.toNat_of_mem_utf8EncodeChar (hbytes ▸ List.mem_cons_self) with
        ⟨-, -, heq⟩ | ⟨hchar, -⟩
      · exact ⟨first, rest, rfl, (isAsciiAlphanumeric_iff heq).1 hfirst, by omega, hrest⟩
      · exact absurd hfirstName.toNat_lt (by omega)
    · rintro ⟨first', rest', heq, hfirst, hlength, hrest⟩
      obtain ⟨rfl, rfl⟩ := List.cons.inj heq
      have hname : ∀ c ∈ first :: rest, IsNameChar c :=
        List.forall_mem_cons.2 ⟨Or.inl hfirst, hrest⟩
      refine ⟨⟨⟨rfl, ?_⟩, hname⟩, ?_⟩
      · rw [length_asBytes_of_isNameChar hname, List.length_cons]
        omega
      · rcases Utf8.toNat_of_mem_utf8EncodeChar (hbytes ▸ List.mem_cons_self) with
          ⟨-, -, heq⟩ | ⟨hchar, -⟩
        · exact (isAsciiAlphanumeric_iff heq).2 hfirst
        · exact absurd (IsNameChar.toNat_lt (Or.inl hfirst)) (by omega)

/-- The name of an extension contains no slash. -/
theorem IsExtensionName.not_mem_slash {name : Str} (h : IsExtensionName name) : '/' ∉ name := by
  obtain ⟨first, rest, rfl, hfirst, -, hrest⟩ := h
  have hslash : ¬ IsNameChar '/' := by
    simp [IsNameChar, IsAlphanumeric]
  intro hmem
  rcases List.mem_cons.1 hmem with rfl | hmem
  · exact hslash (Or.inl hfirst)
  · exact hslash (hrest '/' hmem)

theorem IsExtensionName.ne_nil {name : Str} (h : IsExtensionName name) : name ≠ [] := by
  obtain ⟨first, rest, rfl, -⟩ := h
  exact List.cons_ne_nil _ _

/-! ### Files -/

/-- A suffix without a slash lies in the last segment. -/
theorem isSuffix_lastSegment_iff {suffix path : Str} (h : '/' ∉ suffix) :
    suffix <:+ lastSegment path ↔ suffix <:+ path := by
  rw [← List.reverse_prefix, lastSegment, List.reverse_reverse, ← List.reverse_prefix]
  constructor
  · exact fun hpre ↦ hpre.trans (List.takeWhile_prefix _)
  · rintro ⟨rest, hrest⟩
    rw [← hrest, List.takeWhile_append_of_pos fun c hc ↦ ?_]
    · exact List.prefix_append _ _
    · have hne : c ≠ '/' := fun heq ↦ h (List.mem_reverse.1 (heq ▸ hc))
      exact decide_eq_true hne

/-- **The table of suffixes** is the one of the grammar. -/
theorem isTextAsset_iff {asset : Str} : isTextAsset asset = true ↔ IsTextFile asset := by
  simp only [isTextAsset, textAssetSuffixes, List.any_cons, List.any_nil, Bool.or_false,
    Bool.or_eq_true, List.isSuffixOf_iff_suffix, IsTextFile]
  rw [isSuffix_lastSegment_iff (by decide), isSuffix_lastSegment_iff (by decide),
    isSuffix_lastSegment_iff (by decide), isSuffix_lastSegment_iff (by decide),
    isSuffix_lastSegment_iff (by decide), isSuffix_lastSegment_iff (by decide)]

theorem IsTextFile.ne_nil {file : Str} (h : IsTextFile file) : file ≠ [] := by
  rintro rfl
  simp only [IsTextFile, List.suffix_nil] at h
  exact absurd h (by decide)

namespace PolicyConfig

variable {config : PolicyConfig}

/-- A rule is on in the policy exactly if it is configured. -/
theorem isRuleEnabled_policy {rule : RewriteRule} :
    config.policy.isRuleEnabled rule = true ↔ rule ∈ config.enabledRules := by
  simp [RewritePolicy.isRuleEnabled, policy, RewritePolicy.newWithRules]

/-- The enabled set is `{"*"}`. -/
theorem card_eq_one_and_mem_iff {names : List Str} :
    names.toFinset.card = 1 ∧ allExtensionsWildcard ∈ names ↔
      ∀ e, e ∈ names ↔ e = allExtensionsWildcard := by
  constructor
  · rintro ⟨hcard, hmem⟩ e
    obtain ⟨a, ha⟩ := Finset.card_eq_one.1 hcard
    have hiff : ∀ x, x ∈ names ↔ x = a := fun x ↦ by
      rw [← List.mem_toFinset, ha, Finset.mem_singleton]
    rw [hiff e, (hiff _).1 hmem]
  · intro h
    have hset : names.toFinset = {allExtensionsWildcard} := by
      ext e
      rw [List.mem_toFinset, Finset.mem_singleton, h e]
    exact ⟨by rw [hset, Finset.card_singleton], (h _).2 rfl⟩

/-- An extension is on in the policy exactly if the configuration enables it. -/
theorem isExtensionEnabled_policy {extension : Str} :
    config.policy.isExtensionEnabled extension = true ↔ config.Enables extension := by
  simp only [RewritePolicy.isExtensionEnabled, policy, RewritePolicy.newWithRules,
    Bool.and_eq_true, decide_eq_true_eq, List.mem_toFinset, Enables, and_assoc,
    isSafeExtensionName_iff]
  refine and_congr_right fun _ ↦ and_congr_right fun _ ↦ ?_
  by_cases hall : config.enabledExtensions.toFinset.card = 1 ∧
      allExtensionsWildcard ∈ config.enabledExtensions
  · rw [if_pos hall]
    simp only [true_iff]
    exact Or.inr (card_eq_one_and_mem_iff.1 hall)
  · rw [if_neg hall]
    simp only [decide_eq_true_eq, List.mem_toFinset]
    exact ⟨Or.inl, fun h ↦ h.resolve_right fun h' ↦ hall (card_eq_one_and_mem_iff.2 h')⟩

/-! ### The parts of a path -/

/-- The name and the rest of a path below `proxy`. -/
theorem namedProxyPath_eq_some_iff {path name rest : Str} :
    config.policy.namedProxyPath path = some (name, rest) ↔
      path = config.root ++ str "/proxy/" ++ name ++ '/' :: rest ∧ name ≠ [] ∧ '/' ∉ name := by
  rw [RewritePolicy.namedProxyPath, Option.filter_eq_some_iff, Option.bind_eq_some_iff]
  constructor
  · rintro ⟨⟨t, ht, hsplit⟩, hne⟩
    obtain ⟨rfl, hslash⟩ := splitOnce_singleton_eq_some_iff.1 hsplit
    refine ⟨?_, by simpa using hne, hslash⟩
    rw [stripPrefix_eq_some_iff.1 ht, ← List.append_assoc]
    rfl
  · rintro ⟨rfl, hne, hslash⟩
    refine ⟨⟨name ++ '/' :: rest, stripPrefix_eq_some_iff.2 ?_,
      splitOnce_singleton_eq_some_iff.2 ⟨rfl, hslash⟩⟩, by simpa using hne⟩
    rw [List.append_assoc]
    rfl

/-- The profile below a proxy depends on its name, the rules and the asset. -/
theorem namedProxyProfile_eq_some_iff {name rest : Str} {profile : RewriteProfile} :
    config.policy.namedProxyProfile name rest = some profile ↔
      (name = str "ys1000" ∧ .ys1000Html ∈ config.enabledRules ∧ profile = .ys1000Html) ∨
      (name = str "ys1000" ∧ .ys1000Html ∉ config.enabledRules ∧
        .namedProxyHtml ∈ config.enabledRules ∧ profile = .namedProxyHtml) ∨
      (name = str "kubekey" ∧ str "assets/" <+: rest ∧ str ".js" <:+ rest ∧
        .kubekeyAssetJs ∈ config.enabledRules ∧ profile = .kubekeyAssetJs) ∨
      (name ≠ str "ys1000" ∧ ¬ str ".js" <:+ rest ∧
        .namedProxyHtml ∈ config.enabledRules ∧ profile = .namedProxyHtml) := by
  have hnames : str "kubekey" ≠ str "ys1000" := by decide
  have hjs : (!rest.isEmpty && (str ".js").isSuffixOf rest) = true ↔ str ".js" <:+ rest := by
    rw [Bool.and_eq_true, List.isSuffixOf_iff_suffix, and_iff_right_iff_imp]
    rintro ⟨t, rfl⟩
    rw [Bool.not_eq_true', List.isEmpty_eq_false_iff]
    exact List.append_ne_nil_of_right_ne_nil t (by decide)
  simp only [RewritePolicy.namedProxyProfile, ys1000Name, kubekeyName, isRuleEnabled_policy, hjs,
    Bool.and_eq_true, beq_iff_eq, List.isPrefixOf_iff_prefix]
  by_cases hys : name = str "ys1000"
  · have hkubekey : name ≠ str "kubekey" := fun h ↦ hnames (h.symm.trans hys)
    rw [if_pos hys]
    by_cases h₅ : RewriteRule.ys1000Html ∈ config.enabledRules
    · rw [if_pos h₅, Option.some.injEq]
      refine ⟨fun h ↦ Or.inl ⟨hys, h₅, h.symm⟩, ?_⟩
      rintro (⟨-, -, h⟩ | ⟨-, h, -⟩ | ⟨h, -⟩ | ⟨h, -⟩)
      exacts [h.symm, absurd h₅ h, absurd h hkubekey, absurd hys h]
    rw [if_neg h₅]
    by_cases h₄ : RewriteRule.namedProxyHtml ∈ config.enabledRules
    · rw [if_pos h₄, Option.some.injEq]
      refine ⟨fun h ↦ Or.inr (Or.inl ⟨hys, h₅, h₄, h.symm⟩), ?_⟩
      rintro (⟨-, h, -⟩ | ⟨-, -, -, h⟩ | ⟨h, -⟩ | ⟨h, -⟩)
      exacts [absurd h h₅, h.symm, absurd h hkubekey, absurd hys h]
    · rw [if_neg h₄]
      refine ⟨fun h ↦ absurd h (by simp), ?_⟩
      rintro (⟨-, h, -⟩ | ⟨-, -, h, -⟩ | ⟨h, -⟩ | ⟨h, -⟩)
      exacts [absurd h h₅, absurd h h₄, absurd h hkubekey, absurd hys h]
  rw [if_neg hys]
  by_cases hrest : str ".js" <:+ rest
  · rw [if_pos hrest]
    by_cases h₆ : (name = str "kubekey" ∧ str "assets/" <+: rest) ∧
        RewriteRule.kubekeyAssetJs ∈ config.enabledRules
    · rw [if_pos h₆, Option.some.injEq]
      refine ⟨fun h ↦ Or.inr (Or.inr (Or.inl ⟨h₆.1.1, h₆.1.2, hrest, h₆.2, h.symm⟩)), ?_⟩
      rintro (⟨h, -⟩ | ⟨h, -⟩ | ⟨-, -, -, -, h⟩ | ⟨-, h, -⟩)
      exacts [absurd h hys, absurd h hys, h.symm, absurd hrest h]
    · rw [if_neg h₆]
      refine ⟨fun h ↦ absurd h (by simp), ?_⟩
      rintro (⟨h, -⟩ | ⟨h, -⟩ | ⟨h, h', -, h'', -⟩ | ⟨-, h, -⟩)
      exacts [absurd h hys, absurd h hys, absurd ⟨⟨h, h'⟩, h''⟩ h₆, absurd hrest h]
  rw [if_neg hrest]
  by_cases h₄ : RewriteRule.namedProxyHtml ∈ config.enabledRules
  · rw [if_pos h₄, Option.some.injEq]
    refine ⟨fun h ↦ Or.inr (Or.inr (Or.inr ⟨hys, hrest, h₄, h.symm⟩)), ?_⟩
    rintro (⟨h, -⟩ | ⟨h, -⟩ | ⟨-, -, h, -⟩ | ⟨-, -, -, h⟩)
    exacts [absurd h hys, absurd h hys, absurd h hrest, h.symm]
  · rw [if_neg h₄]
    refine ⟨fun h ↦ absurd h (by simp), ?_⟩
    rintro (⟨h, -⟩ | ⟨h, -⟩ | ⟨-, -, h, -⟩ | ⟨-, -, h, -⟩)
    exacts [absurd h hys, absurd h hys, absurd h hrest, absurd h h₄]

/-- The asset path below a distribution, which has the name of the extension. -/
theorem jsbundleAssetPath_eq_some_iff {extension distributionPath file : Str}
    (hslash : '/' ∉ extension) :
    jsbundleAssetPath extension distributionPath = some file ↔
      ∃ distribution, distributionPath = distribution ++ '/' :: file ∧
        (distribution = extension ∨ extension = distribution ++ str "-frontend") := by
  have hstrip : ∀ {d f : Str}, (stripPrefix d distributionPath).bind (stripPrefix (str "/")) =
      some f ↔ distributionPath = d ++ '/' :: f := by
    intro d f
    rw [Option.bind_eq_some_iff]
    constructor
    · rintro ⟨t, ht, hf⟩
      rw [stripPrefix_eq_some_iff.1 ht, stripPrefix_eq_some_iff.1 hf]
      rfl
    · rintro h
      exact ⟨'/' :: f, stripPrefix_eq_some_iff.2 h, stripPrefix_eq_some_iff.2 rfl⟩
  rw [jsbundleAssetPath, Option.or_eq_some_iff, hstrip, Option.bind_eq_some_iff]
  constructor
  · rintro (h | ⟨-, d, hd, h⟩)
    · exact ⟨extension, h, Or.inl rfl⟩
    · exact ⟨d, hstrip.1 h, Or.inr (stripSuffix_eq_some_iff.1 hd)⟩
  · rintro ⟨d, h, rfl | hd⟩
    · exact Or.inl h
    · refine Or.inr ⟨?_, d, stripSuffix_eq_some_iff.2 hd, hstrip.2 h⟩
      rcases hnone : (stripPrefix extension distributionPath).bind (stripPrefix (str "/"))
        with - | f
      · rfl
      · -- the distribution is the text before the first slash, so it is not the extension
        have h' := hstrip.1 hnone
        have hsplit : splitOnce ['/'] distributionPath = some (extension, f) :=
          splitOnce_singleton_eq_some_iff.2 ⟨h', hslash⟩
        have hsplit' : splitOnce ['/'] distributionPath = some (d, file) :=
          splitOnce_singleton_eq_some_iff.2 ⟨h, fun hmem ↦ hslash (by simp [hd, hmem])⟩
        rw [hsplit] at hsplit'
        have heq := (Prod.mk.inj (Option.some.inj hsplit')).1
        rw [heq] at hd
        exact absurd (List.self_eq_append_right.1 hd) (by decide)

/-- The profile of a bundle depends on the extension, the file and the rules. -/
theorem jsbundleProfile_eq_some_iff {extension distribution file : Str}
    {profile : RewriteProfile} :
    config.policy.jsbundleProfile extension (distribution ++ '/' :: file) file = some profile ↔
      (str "-frontend" <:+ extension ∧ file = str "index.js" ∧
        .frontendIndexJsBundle ∈ config.enabledRules ∧
        profile = if extension = str "ys1000-frontend" ∧ distribution = str "ys1000-frontend"
          then .ys1000FrontendIndexJsBundle else .frontendIndexJsBundle) ∨
      (¬ (str "-frontend" <:+ extension ∧ file = str "index.js" ∧
          .frontendIndexJsBundle ∈ config.enabledRules) ∧
        .jsBundle ∈ config.enabledRules ∧ profile = .jsBundle) := by
  simp only [RewritePolicy.jsbundleProfile, ys1000FrontendName, ys1000FrontendIndexPath,
    isRuleEnabled_policy, Bool.and_eq_true, beq_iff_eq, List.isSuffixOf_iff_suffix, and_assoc]
  by_cases hindex : str "-frontend" <:+ extension ∧ file = str "index.js" ∧
      RewriteRule.frontendIndexJsBundle ∈ config.enabledRules
  · rw [if_pos hindex]
    have hpath : distribution ++ '/' :: file = str "ys1000-frontend/index.js" ↔
        distribution = str "ys1000-frontend" := by
      rw [show str "ys1000-frontend/index.js" = str "ys1000-frontend" ++ '/' :: file by
        rw [hindex.2.1]
        decide]
      exact List.append_left_inj _
    have hsome : ∀ c : Prop, [Decidable c] →
        ((if c then some RewriteProfile.ys1000FrontendIndexJsBundle
          else some .frontendIndexJsBundle) = some profile ↔
          profile = if c then .ys1000FrontendIndexJsBundle else .frontendIndexJsBundle) := by
      intro c _
      split <;> rw [Option.some.injEq, eq_comm]
    simp only [hpath, hsome]
    refine ⟨fun h ↦ Or.inl ⟨hindex.1, hindex.2.1, hindex.2.2, h⟩, ?_⟩
    rintro (⟨-, -, -, h⟩ | ⟨h, -⟩)
    exacts [h, absurd hindex h]
  rw [if_neg hindex]
  by_cases h₂ : RewriteRule.jsBundle ∈ config.enabledRules
  · rw [if_pos h₂, Option.some.injEq]
    refine ⟨fun h ↦ Or.inr ⟨hindex, h₂, h.symm⟩, ?_⟩
    rintro (⟨h, h', h'', -⟩ | ⟨-, -, h⟩)
    exacts [absurd ⟨h, h', h''⟩ hindex, h.symm]
  · rw [if_neg h₂]
    refine ⟨fun h ↦ absurd h (by simp), ?_⟩
    rintro (⟨h, h', h'', -⟩ | ⟨-, h, -⟩)
    exacts [absurd ⟨h, h', h''⟩ hindex, absurd h h₂]

/-- The path behind a root, cut at a separator behind a name without a slash. -/
theorem exists_splitOnce_iff (pre separator : Str) {path name rest : Str}
    (hslash : '/' ∉ name) :
    (∃ t, stripPrefix pre path = some t ∧
        splitOnce ('/' :: separator) t = some (name, rest)) ↔
      path = pre ++ name ++ '/' :: separator ++ rest := by
  constructor
  · rintro ⟨t, ht, hsplit⟩
    rw [stripPrefix_eq_some_iff.1 ht, (splitOnce_eq_some_iff.1 hsplit).1]
    simp only [List.append_assoc]
  · rintro rfl
    refine ⟨name ++ '/' :: separator ++ rest, stripPrefix_eq_some_iff.2 ?_,
      splitOnce_of_not_mem hslash⟩
    simp only [List.append_assoc]

/-- **The paths below `jsbundles`.** -/
theorem jsbundlePath_eq_some_iff {path extension : Str} {profile : RewriteProfile} :
    config.policy.jsbundlePath path = some (extension, profile) ↔
      config.Jsbundle path profile extension := by
  have hbody : ∀ {x distributionPath file : Str}, config.Enables x →
      (jsbundleAssetPath x distributionPath = some file ↔
        ∃ distribution, distributionPath = distribution ++ '/' :: file ∧
          (distribution = x ∨ x = distribution ++ str "-frontend")) := fun henabled ↦
    jsbundleAssetPath_eq_some_iff (henabled.1.not_mem_slash)
  constructor
  · intro h
    simp only [RewritePolicy.jsbundlePath, Option.bind_eq_bind, Option.bind_eq_some_iff] at h
    obtain ⟨t, hroot, ⟨x, distributionPath⟩, hsplit, file, hfile, h⟩ := h
    split at h
    · rename_i hguard
      simp only [Bool.and_eq_true, isExtensionEnabled_policy, Bool.not_eq_true',
        List.isSuffixOf_iff_suffix] at hguard
      obtain ⟨⟨⟨henabled, -⟩, hslash⟩, hjs⟩ := hguard
      obtain ⟨profile', hprofile, heq⟩ := Option.map_eq_some_iff.1 h
      obtain ⟨rfl, rfl⟩ := Prod.mk.inj heq
      obtain ⟨distribution, rfl, hname⟩ := (hbody henabled).1 hfile
      refine ⟨distribution, file, ?_, by simpa using hslash, hjs, henabled, hname,
        jsbundleProfile_eq_some_iff.1 hprofile⟩
      rw [(exists_splitOnce_iff _ (str "dist/") henabled.1.not_mem_slash).1 ⟨t, hroot, hsplit⟩]
      simp only [List.append_assoc]
      rfl
    · exact absurd h (by simp)
  · rintro ⟨distribution, file, rfl, hslash, hjs, henabled, hname, hprofile⟩
    obtain ⟨t, hroot, hsplit⟩ := (exists_splitOnce_iff (config.root ++ str "/jsbundles/")
      (str "dist/") (henabled.1.not_mem_slash)).2
      (show config.root ++ str "/jsbundles/" ++ extension ++ str "/dist/" ++ distribution ++
        '/' :: file = _ ++ (distribution ++ '/' :: file) by simp only [List.append_assoc]; rfl)
    have hfile : jsbundleAssetPath extension (distribution ++ '/' :: file) = some file :=
      (hbody henabled).2 ⟨distribution, rfl, hname⟩
    have hne : file ≠ [] := by
      rintro rfl
      exact absurd (List.suffix_nil.1 hjs) (by decide)
    have hguard : (config.policy.isExtensionEnabled extension && !file.isEmpty &&
        !file.contains '/' && (str ".js").isSuffixOf file) = true := by
      rw [isExtensionEnabled_policy.2 henabled, List.isSuffixOf_iff_suffix.2 hjs]
      simp [hne, hslash]
    simp only [RewritePolicy.jsbundlePath, Option.bind_eq_bind, Option.bind_eq_some_iff]
    refine ⟨t, hroot, (extension, _), hsplit, file, hfile, ?_⟩
    simp only
    rw [if_pos hguard, jsbundleProfile_eq_some_iff.2 hprofile]
    rfl

/-- **The paths below `extensions-static`.** -/
theorem staticPath_eq_some_iff {path extension : Str} :
    config.policy.staticPath path = some extension ↔
      config.Static path .consoleV3 extension := by
  -- the negated guard of the code, as the conjunction it stands for
  have hguard : ∀ {x asset : Str}, (x.isEmpty || asset.isEmpty || x.contains '/' ||
      !config.policy.isRuleEnabled .consoleV3 || !config.policy.isExtensionEnabled x ||
      !isTextAsset asset) = false ↔
        x ≠ [] ∧ asset ≠ [] ∧ '/' ∉ x ∧ .consoleV3 ∈ config.enabledRules ∧ config.Enables x ∧
          IsTextFile asset := by
    intro x asset
    simp only [Bool.or_eq_false_iff, Bool.not_eq_false', isRuleEnabled_policy,
      isExtensionEnabled_policy, isTextAsset_iff, List.isEmpty_eq_false_iff, List.contains_eq_mem,
      decide_eq_false_iff_not, and_assoc]
  constructor
  · intro h
    simp only [RewritePolicy.staticPath, Option.bind_eq_bind, Option.bind_eq_some_iff] at h
    obtain ⟨t, hroot, ⟨x, asset⟩, hsplit, h⟩ := h
    split at h
    · exact absurd h (by simp)
    · rename_i hnot
      obtain ⟨-, -, hslash, hrule, henabled, hfile⟩ :=
        hguard.1 (Bool.not_eq_true _ ▸ hnot)
      obtain rfl := Option.some.inj h
      refine ⟨asset, ?_, henabled, hfile, hrule, rfl⟩
      rw [(exists_splitOnce_iff _ (str "dist/v3dist/") hslash).1 ⟨t, hroot, hsplit⟩]
      rfl
  · rintro ⟨asset, hpath, henabled, hfile, hrule, -⟩
    obtain ⟨t, hroot, hsplit⟩ := (exists_splitOnce_iff (config.root ++ str "/extensions-static/")
      (str "dist/v3dist/") (henabled.1.not_mem_slash)).2 hpath
    simp only [RewritePolicy.staticPath, Option.bind_eq_bind, Option.bind_eq_some_iff]
    refine ⟨t, hroot, (extension, asset), hsplit, ?_⟩
    simp only
    rw [if_neg (Bool.not_eq_true _ ▸ hguard.2 ⟨henabled.1.ne_nil, hfile.ne_nil,
      henabled.1.not_mem_slash, hrule, henabled, hfile⟩)]

/-! ### The decision -/

/-- A path lies below one root only. -/
theorem root_unique {root u v : Str} {a b : Char}
    (h : root ++ '/' :: a :: u = root ++ '/' :: b :: v) : a = b :=
  (List.cons.inj (List.cons.inj (List.append_cancel_left h)).2).1

theorem NamedProxy.exists_eq {path extension : Str} {profile : RewriteProfile}
    (h : config.NamedProxy path profile extension) :
    ∃ t, path = config.root ++ '/' :: 'p' :: t := by
  obtain ⟨rest, rfl, -⟩ := h
  exact ⟨str "roxy/" ++ extension ++ '/' :: rest, by simp only [List.append_assoc]; rfl⟩

theorem Jsbundle.exists_eq {path extension : Str} {profile : RewriteProfile}
    (h : config.Jsbundle path profile extension) : ∃ t, path = config.root ++ '/' :: 'j' :: t := by
  obtain ⟨distribution, file, rfl, -⟩ := h
  exact ⟨str "sbundles/" ++ extension ++ str "/dist/" ++ distribution ++ '/' :: file,
    by simp only [List.append_assoc]; rfl⟩

theorem Static.exists_eq {path extension : Str} {profile : RewriteProfile}
    (h : config.Static path profile extension) : ∃ t, path = config.root ++ '/' :: 'e' :: t := by
  obtain ⟨asset, rfl, -⟩ := h
  exact ⟨str "xtensions-static/" ++ extension ++ str "/dist/v3dist/" ++ asset,
    by simp only [List.append_assoc]; rfl⟩

theorem Static.profile_eq {path extension : Str} {profile : RewriteProfile}
    (h : config.Static path profile extension) : profile = .consoleV3 := by
  obtain ⟨-, -, -, -, -, h⟩ := h
  exact h

/-- Below `proxy` the grammar is the profile table. -/
theorem namedProxy_iff {path name rest extension : Str} {profile : RewriteProfile}
    (h : config.policy.namedProxyPath path = some (name, rest)) :
    config.NamedProxy path profile extension ↔
      name = extension ∧ config.policy.namedProxyProfile name rest = some profile := by
  constructor
  · rintro ⟨rest', heq, hne, hslash, hprofile⟩
    have h' := namedProxyPath_eq_some_iff.2 ⟨heq, hne, hslash⟩
    rw [h] at h'
    obtain ⟨rfl, rfl⟩ := Prod.mk.inj (Option.some.inj h')
    exact ⟨rfl, namedProxyProfile_eq_some_iff.2 hprofile⟩
  · rintro ⟨rfl, hprofile⟩
    obtain ⟨heq, hne, hslash⟩ := namedProxyPath_eq_some_iff.1 h
    exact ⟨rest, heq, hne, hslash, namedProxyProfile_eq_some_iff.1 hprofile⟩

/-- The method of a request that may be rewritten. -/
def IsRead (method : Str) : Prop :=
  eqIgnoreAsciiCase method (str "GET") = true ∨ eqIgnoreAsciiCase method (str "HEAD") = true

/-- The guard of `decide`: no base path, or another method. -/
theorem bypass_guard_iff {method : Str} : (config.policy.basePath.isEmpty ||
    (!eqIgnoreAsciiCase method (str "GET") && !eqIgnoreAsciiCase method (str "HEAD"))) = true ↔
      config.root = [] ∨ ¬ IsRead method := by
  rw [Bool.or_eq_true, List.isEmpty_iff, IsRead, not_or, Bool.and_eq_true, Bool.not_eq_true',
    Bool.not_eq_true', Bool.not_eq_true, Bool.not_eq_true]
  rfl

/-- Without a base path, or for other methods, nothing is rewritten. -/
theorem decide_eq_bypass {method : Str} (h : config.root = [] ∨ ¬ IsRead method) (path : Str) :
    config.policy.decide method path = .bypass := by
  rw [RewritePolicy.decide, if_pos (bypass_guard_iff.2 h)]

/-- Requests that pass the guard are rewritten as the grammar says. -/
theorem decide_eq_rewrite_iff {method : Str} (h : ¬ (config.root = [] ∨ ¬ IsRead method))
    {path extension : Str} {profile : RewriteProfile} {headOnly : Bool} :
    config.policy.decide method path = .rewrite profile extension headOnly ↔
      headOnly = eqIgnoreAsciiCase method (str "HEAD") ∧ config.Grammar path profile extension := by
  rw [RewritePolicy.decide, if_neg (mt bypass_guard_iff.1 h)]
  have hrewrite : ∀ {p : RewriteProfile} {x : Str}, RewriteDecision.rewrite p x
      (eqIgnoreAsciiCase method (str "HEAD")) = .rewrite profile extension headOnly ↔
        headOnly = eqIgnoreAsciiCase method (str "HEAD") ∧ x = extension ∧ p = profile := by
    intro p x
    rw [RewriteDecision.rewrite.injEq]
    exact ⟨fun h ↦ ⟨h.2.2.symm, h.2.1, h.1⟩, fun h ↦ ⟨h.2.2, h.2.1, h.1.symm⟩⟩
  simp only
  rcases hnamed : config.policy.namedProxyPath path with - | ⟨name, rest⟩
  · have hnot : ¬ config.NamedProxy path profile extension := by
      rintro ⟨rest, heq, hne, hslash, -⟩
      rw [namedProxyPath_eq_some_iff.2 ⟨heq, hne, hslash⟩] at hnamed
      exact absurd hnamed (by simp)
    simp only [Grammar, hnot, false_or]
    rcases hbundle : config.policy.jsbundlePath path with - | ⟨x, p⟩
    · have hnot' : ¬ config.Jsbundle path profile extension := fun h ↦ by
        rw [jsbundlePath_eq_some_iff.2 h] at hbundle
        exact absurd hbundle (by simp)
      simp only [hnot', false_or]
      rcases hstatic : config.policy.staticPath path with - | x
      · refine ⟨fun h ↦ absurd h (by simp), fun h ↦ ?_⟩
        obtain rfl := h.2.profile_eq
        rw [staticPath_eq_some_iff.2 h.2] at hstatic
        exact absurd hstatic (by simp)
      · simp only [hrewrite]
        refine and_congr_right fun _ ↦ ⟨?_, fun h ↦ ?_⟩
        · rintro ⟨rfl, rfl⟩
          exact staticPath_eq_some_iff.1 hstatic
        · obtain rfl := h.profile_eq
          rw [staticPath_eq_some_iff.2 h] at hstatic
          exact ⟨(Option.some.inj hstatic).symm, rfl⟩
    · have hbelow := jsbundlePath_eq_some_iff.1 hbundle
      have hnot' : ¬ config.Static path profile extension := fun h ↦ by
        obtain ⟨t, ht⟩ := h.exists_eq
        obtain ⟨u, hu⟩ := hbelow.exists_eq
        exact absurd (root_unique (ht.symm.trans hu)) (by decide)
      simp only [hrewrite, hnot', or_false]
      refine and_congr_right fun _ ↦ ⟨?_, fun h ↦ ?_⟩
      · rintro ⟨rfl, rfl⟩
        exact hbelow
      · rw [jsbundlePath_eq_some_iff.2 h] at hbundle
        obtain ⟨rfl, rfl⟩ := Prod.mk.inj (Option.some.inj hbundle)
        exact ⟨rfl, rfl⟩
  · have hbelow : ∃ t, path = config.root ++ '/' :: 'p' :: t := by
      obtain ⟨heq, -⟩ := namedProxyPath_eq_some_iff.1 hnamed
      exact ⟨str "roxy/" ++ name ++ '/' :: rest, by
        rw [heq]
        simp only [List.append_assoc]
        rfl⟩
    obtain ⟨u, hu⟩ := hbelow
    have hnot : ¬ (config.Jsbundle path profile extension ∨
        config.Static path profile extension) := by
      rintro (h | h)
      · obtain ⟨t, ht⟩ := h.exists_eq
        exact absurd (root_unique (ht.symm.trans hu)) (by decide)
      · obtain ⟨t, ht⟩ := h.exists_eq
        exact absurd (root_unique (ht.symm.trans hu)) (by decide)
    simp only [Grammar, hnot, or_false, namedProxy_iff hnamed]
    rcases config.policy.namedProxyProfile name rest with - | p
    · simp
    · simp only [hrewrite, Option.some.injEq]

/-- A request that is rewritten lies in the grammar. -/
theorem grammar_of_decide {method path extension : Str} {profile : RewriteProfile}
    {headOnly : Bool}
    (h : config.policy.decide method path = .rewrite profile extension headOnly) :
    config.root ≠ [] ∧ config.Grammar path profile extension := by
  by_cases hguard : config.root = [] ∨ ¬ IsRead method
  · exact absurd ((decide_eq_bypass hguard path).symm.trans h) (by simp)
  · exact ⟨(not_or.1 hguard).1, ((decide_eq_rewrite_iff hguard).1 h).2⟩

/-- **The policy decides exactly the documented path grammar.** -/
theorem decide_policy (config : PolicyConfig) (method path : Str) :
    (config.root = [] ∨ ¬ IsRead method → config.policy.decide method path = .bypass) ∧
      (¬ (config.root = [] ∨ ¬ IsRead method) → ∀ profile extension headOnly,
        config.policy.decide method path = .rewrite profile extension headOnly ↔
          headOnly = eqIgnoreAsciiCase method (str "HEAD") ∧
            config.Grammar path profile extension) :=
  ⟨fun h ↦ decide_eq_bypass h path, fun h _ _ _ ↦ decide_eq_rewrite_iff h⟩

/-- Below the base path `/b`, when they are read: a page of `ys1000`, a bundle, and a style. -/
theorem decide_policy_page :
    let config : PolicyConfig :=
      ⟨str "/b/", [allExtensionsWildcard], [], [.ys1000Html, .jsBundle, .consoleV3]⟩
    config.policy.decide (str "POST") (str "/b/proxy/ys1000/x") = .bypass ∧
      config.policy.decide (str "get") (str "/b/proxy/ys1000/x") =
        .rewrite .ys1000Html (str "ys1000") false ∧
      config.policy.decide (str "get") (str "/b/jsbundles/app-frontend/dist/app/a.js") =
        .rewrite .jsBundle (str "app-frontend") false ∧
      config.policy.decide (str "get") (str "/b/extensions-static/app/dist/v3dist/x/a.css") =
        .rewrite .consoleV3 (str "app") false := by
  intro config
  have hread : ¬ (config.root = [] ∨ ¬ IsRead (str "get")) := by
    rw [not_or, not_not]
    exact ⟨by decide, Or.inl (by decide)⟩
  have hwrite : ¬ IsRead (str "POST") := by
    rw [IsRead, not_or]
    exact ⟨by decide, by decide⟩
  have hgrammar : ∀ path profile extension, config.Grammar path profile extension →
      config.policy.decide (str "get") path = .rewrite profile extension false :=
    fun path _ _ h ↦ ((decide_policy config (str "get") path).2 hread _ _ _).2 ⟨by decide, h⟩
  have hall : ∀ extension, IsExtensionName extension → config.Enables extension :=
    fun extension h ↦ ⟨h, List.not_mem_nil, Or.inr fun _ ↦ List.mem_singleton⟩
  refine ⟨(decide_policy config (str "POST") (str "/b/proxy/ys1000/x")).1 (Or.inr hwrite),
    hgrammar _ _ _ (Or.inl ?_), hgrammar _ _ _ (Or.inr (Or.inl ?_)),
    hgrammar _ _ _ (Or.inr (Or.inr ?_))⟩
  · exact ⟨str "x", by decide, by decide, by decide, Or.inl ⟨rfl, by decide, rfl⟩⟩
  · exact ⟨str "app", str "a.js", by decide, by decide, by decide,
      hall _ (isSafeExtensionName_iff.1 (by decide)), Or.inr (by decide),
      Or.inr ⟨by decide, by decide, rfl⟩⟩
  · exact ⟨str "x/a.css", by decide, hall _ (isSafeExtensionName_iff.1 (by decide)),
      Or.inr (Or.inr (Or.inl (by decide))), by decide, rfl⟩

end PolicyConfig

end KseRewriteProxy
