import KirinFS.Ini.Lines
import Mathlib.Data.List.Find

/-! # When a search finds exactly what the text says

Names are compared by prefix, so an empty key always finds something. Queries
that are no proper prefix of a stored name are answered exactly.
-/

namespace KirinFS.Ini
open Foundation.CString

namespace Doc

/-- The value that the document gives to exactly this section and key. -/
def value (doc : Doc) (name key : Str) : Option Str :=
  (doc.find? fun x => x.1 = name).bind fun x => (x.2.find? fun e => e.1 = key).map Prod.snd

/-- After parsing the text every search is answered as the document says. -/
def Answers (doc : Doc) (fin : Bool) : Prop :=
  ∃ ini, stlIniParseString ⟨[]⟩ (text fin doc.lines) = some (ini, 0) ∧
    ∀ name key, IsStr name → IsStr key → stlIniSearch ini name key = doc.value name key

structure Small (doc : Doc) : Prop where
  sections : (doc.filter fun x => x.2 ≠ []).length ≤ sectionMaxSize
  items : ∀ x ∈ doc, x.2.length ≤ sectionMaxItemSize

/-- No section with items has a name that starts the name of an earlier one. -/
def PrefixFree (doc : Doc) : Prop :=
  (doc.filter fun x => x.2 ≠ []).Pairwise fun x y => ¬ y.1 <+: x.1

instance (doc : Doc) : Decidable doc.PrefixFree :=
  inferInstanceAs (Decidable
    ((doc.filter fun x => x.2 ≠ []).Pairwise fun x y => ¬ y.1 <+: x.1))

/-- The query is no proper prefix of a name that it could be taken for. -/
structure Clear (doc : Doc) (name key : Str) : Prop where
  section_eq : ∀ x ∈ doc, name <+: x.1 → x.1 = name
  item_eq : ∀ x ∈ doc, x.1 = name → ∀ e ∈ x.2, key <+: e.1 → e.1 = key

def toSection (x : Str × List (Str × Str)) : StlIniSection :=
  ⟨x.1, x.2.map fun e => ⟨e.1, e.2⟩⟩

def stored (doc : Doc) : List StlIniSection := (doc.filter fun x => x.2 ≠ []).map toSection

end Doc

theorem sameName_iff {stored wanted : Str} (h : IsStr wanted) :
    sameName stored wanted = true ↔ wanted <+: stored := by
  rw [sameName, decide_eq_true_iff, strncmp_eq_zero h]

theorem sameName_false {stored wanted : Str} (h : IsStr wanted) (hn : ¬ wanted <+: stored) :
    sameName stored wanted = false := by
  rw [Bool.eq_false_iff, Ne, sameName_iff h]
  exact hn

theorem IsName.isStr {s : Str} (h : IsName s) : IsStr s :=
  fun c hc => (isNameChar_ne (h.2.2 c hc)).1

section Storing
variable {ini ini' : StlIni} {name key value : Str}

theorem lastSame_cases (w : Str) (i : ℕ) (f : Option ℕ) (l : List StlIniSection) :
    (lastSame w i f l = f ∧ ∀ s ∈ l, sameName s.name w = false) ∨
      ∃ L s R, l = L ++ s :: R ∧ sameName s.name w = true ∧
        lastSame w i f l = some (i + L.length) := by
  induction l generalizing i f with
  | nil => exact Or.inl ⟨rfl, by simp⟩
  | cons s l ih =>
    rw [lastSame]
    rcases ih (i + 1) (if sameName s.name w then some i else f) with
      ⟨hl, hno⟩ | ⟨L, t, R, rfl, ht, hl⟩
    · cases hs : sameName s.name w with
      | false => exact Or.inl ⟨by simpa [hs] using hl, by simpa [hs] using hno⟩
      | true => exact Or.inr ⟨[], s, l, rfl, hs, by simpa [hs] using hl⟩
    · refine Or.inr ⟨s :: L, t, R, rfl, ht, ?_⟩
      rw [hl, List.length_cons]
      congr 1
      omega

/-- An item joins a section that its name starts, or opens a section. -/
theorem onItem_cases (h : stlIniOnItemFunc ini name key value = some ini') :
    (∃ L s R, ini.sections = L ++ s :: R ∧ sameName s.name name = true ∧
      s.items.length < sectionMaxItemSize ∧
      ini'.sections = L ++ { s with items := s.items ++ [⟨key, value⟩] } :: R) ∨
    ((∀ s ∈ ini.sections, sameName s.name name = false) ∧
      ini.sections.length < sectionMaxSize ∧
      ini'.sections = ini.sections ++ [⟨name, [⟨key, value⟩]⟩]) := by
  rw [stlIniOnItemFunc] at h
  rcases lastSame_cases name 0 none ini.sections with ⟨hl, hno⟩ | ⟨L, s, R, hsec, hs, hl⟩
  · rw [hl] at h
    simp only at h
    split at h
    · obtain ⟨s', hput, rfl⟩ := Option.map_eq_some_iff.mp h
      cases hput
      exact Or.inr ⟨hno, ‹_›, rfl⟩
    · cases h
  · rw [hl] at h
    simp only [hsec, Nat.zero_add, List.getElem?_append_right (le_refl _), Nat.sub_self,
      List.getElem?_cons_zero, Option.bind_some] at h
    obtain ⟨s', hput, rfl⟩ := Option.map_eq_some_iff.mp h
    rw [stlIniSectionPutConf] at hput
    split at hput
    · cases hput
      exact Or.inl ⟨L, s, R, hsec, hs, ‹_›, by simp⟩
    · cases hput

end Storing

section Filled

def Filled (ini : StlIni) : Prop := ∀ s ∈ ini.sections, s.items ≠ []

theorem onItem_filled {ini ini' : StlIni} {name key value : Str} (hf : Filled ini)
    (h : stlIniOnItemFunc ini name key value = some ini') :
    ini'.sections ≠ [] ∧ Filled ini' := by
  rcases onItem_cases h with ⟨L, s, R, hsec, -, -, hsec'⟩ | ⟨-, -, hsec'⟩
  · refine ⟨by rw [hsec']; simp, ?_⟩
    intro t ht
    rw [hsec', List.mem_append, List.mem_cons] at ht
    rcases ht with ht | rfl | ht
    · exact hf t (by rw [hsec]; simp [ht])
    · simp
    · exact hf t (by rw [hsec]; simp [ht])
  · refine ⟨by rw [hsec']; simp, ?_⟩
    intro t ht
    rw [hsec', List.mem_append, List.mem_singleton] at ht
    rcases ht with ht | rfl
    · exact hf t ht
    · simp

theorem putAll_filled {ini ini' : StlIni} {xs : List (Str × Str × Str)} (hf : Filled ini)
    (h : putAll ini xs = some ini') : Filled ini' ∧ (xs ≠ [] → ini'.sections ≠ []) := by
  induction xs generalizing ini with
  | nil =>
    obtain rfl := Option.some.inj h
    exact ⟨hf, fun hne => absurd rfl hne⟩
  | cons x xs ih =>
    rw [putAll] at h
    obtain ⟨ini₁, h₁, h⟩ := Option.bind_eq_some_iff.mp h
    obtain ⟨hne, hf₁⟩ := onItem_filled hf h₁
    obtain ⟨hf', hxs⟩ := ih hf₁ h
    refine ⟨hf', fun _ => ?_⟩
    cases xs with
    | nil =>
      obtain rfl := Option.some.inj h
      exact hne
    | cons y ys => exact hxs (List.cons_ne_nil y ys)

/-- The empty key in the empty section is found as soon as anything is stored. -/
theorem search_empty {ini : StlIni} (hf : Filled ini) (hne : ini.sections ≠ []) :
    (stlIniSearch ini [] []).isSome := by
  rcases List.eq_nil_or_concat' ini.sections with h | ⟨l, s, h⟩
  · exact absurd h hne
  · have hs := hf s (by rw [h]; simp)
    obtain ⟨x, xs, hx⟩ := List.exists_cons_of_ne_nil hs
    rw [stlIniSearch, h, List.foldl_append]
    simp [sameName, strncmp, hx]

end Filled

section Faithful

theorem lastSame_none {w : Str} {i : ℕ} {f : Option ℕ} {l : List StlIniSection}
    (h : ∀ s ∈ l, sameName s.name w = false) : lastSame w i f l = f := by
  induction l generalizing i f with
  | nil => rfl
  | cons s l ih =>
    rw [lastSame, h s (by simp)]
    exact ih fun t ht => h t (List.mem_cons_of_mem s ht)

theorem lastSame_concat {w : Str} {i : ℕ} {f : Option ℕ} (l : List StlIniSection)
    {s : StlIniSection} (h : sameName s.name w = true) :
    lastSame w i f (l ++ [s]) = some (i + l.length) := by
  induction l generalizing i f with
  | nil => simp [lastSame, h]
  | cons t l ih =>
    rw [List.cons_append, lastSame, ih, List.length_cons]
    congr 1
    omega

theorem onItem_last {L : List StlIniSection} {n key value : Str} {its : List StlIniItem}
    (hn : IsStr n) (hroom : its.length < sectionMaxItemSize) :
    stlIniOnItemFunc ⟨L ++ [⟨n, its⟩]⟩ n key value =
      some ⟨L ++ [⟨n, its ++ [⟨key, value⟩]⟩]⟩ := by
  have hl : lastSame n 0 none (L ++ [⟨n, its⟩]) = some L.length := by
    rw [lastSame_concat L ((sameName_iff hn).mpr (List.prefix_refl n)), Nat.zero_add]
  simp only [stlIniOnItemFunc, hl]
  simp [stlIniSectionPutConf, hroom]

theorem onItem_new {L : List StlIniSection} {n key value : Str} (hn : IsStr n)
    (hnew : ∀ s ∈ L, ¬ n <+: s.name) (hroom : L.length < sectionMaxSize) :
    stlIniOnItemFunc ⟨L⟩ n key value = some ⟨L ++ [⟨n, [⟨key, value⟩]⟩]⟩ := by
  have hl : lastSame n 0 none L = none :=
    lastSame_none fun s hs => sameName_false hn (hnew s hs)
  simp only [stlIniOnItemFunc, hl]
  rw [if_pos hroom]
  rfl

theorem putAll_section {L : List StlIniSection} {n : Str} {its : List StlIniItem}
    {es : List (Str × Str)} {xs : List (Str × Str × Str)} (hn : IsStr n)
    (hroom : its.length + es.length ≤ sectionMaxItemSize) :
    putAll ⟨L ++ [⟨n, its⟩]⟩ (es.map (fun e => (n, e)) ++ xs) =
      putAll ⟨L ++ [⟨n, its ++ es.map fun e => ⟨e.1, e.2⟩⟩]⟩ xs := by
  induction es generalizing its with
  | nil => simp
  | cons e es ih =>
    simp only [List.length_cons] at hroom
    rw [List.map_cons, List.cons_append, putAll, onItem_last hn (by omega), Option.bind_some,
      ih (by rw [List.length_append, List.length_singleton]; omega)]
    simp

/-- A small prefix-free document is stored section by section. -/
theorem putAll_doc {doc : Doc} {L : List StlIniSection} (hn : ∀ x ∈ doc, IsStr x.1)
    (hroom : L.length + (doc.filter fun x => x.2 ≠ []).length ≤ sectionMaxSize)
    (hitems : ∀ x ∈ doc, x.2.length ≤ sectionMaxItemSize) (hfree : doc.PrefixFree)
    (hL : ∀ s ∈ L, ∀ x ∈ doc, x.2 ≠ [] → ¬ x.1 <+: s.name) :
    putAll ⟨L⟩ doc.items = some ⟨L ++ doc.stored⟩ := by
  induction doc generalizing L with
  | nil => simp [Doc.items, Doc.stored, putAll]
  | cons x doc ih =>
    have hn' := fun y hy => hn y (List.mem_cons_of_mem x hy)
    have hitems' := fun y hy => hitems y (List.mem_cons_of_mem x hy)
    have hL' := fun s hs y hy => hL s hs y (List.mem_cons_of_mem x hy)
    have hsplit : Doc.items (x :: doc) = x.2.map (fun e => (x.1, e)) ++ Doc.items doc := rfl
    have hstr := hn x (by simp)
    rw [hsplit]
    by_cases hx : x.2 = []
    · have hfilter : (x :: doc).filter (fun x => x.2 ≠ []) = doc.filter fun x => x.2 ≠ [] := by
        rw [List.filter_cons_of_neg (by simp [hx])]
      have hstored : Doc.stored (x :: doc) = Doc.stored doc := by
        rw [Doc.stored, hfilter, Doc.stored]
      rw [Doc.PrefixFree, hfilter] at hfree
      rw [hfilter] at hroom
      rw [hstored, hx, List.map_nil, List.nil_append]
      exact ih hn' hroom hitems' hfree hL'
    · have hfilter : (x :: doc).filter (fun x => x.2 ≠ []) =
          x :: doc.filter fun x => x.2 ≠ [] := by
        rw [List.filter_cons_of_pos (by simp [hx])]
      have hstored : Doc.stored (x :: doc) = Doc.toSection x :: Doc.stored doc := by
        rw [Doc.stored, hfilter, List.map_cons, Doc.stored]
      rw [Doc.PrefixFree, hfilter, List.pairwise_cons] at hfree
      rw [hfilter, List.length_cons] at hroom
      obtain ⟨e, es, hes⟩ := List.exists_cons_of_ne_nil hx
      have hlen := hitems x (by simp)
      rw [hes, List.length_cons] at hlen
      rw [hstored, hes, List.map_cons, List.cons_append, putAll,
        onItem_new hstr (fun s hs => hL s hs x (by simp) hx) (by omega), Option.bind_some,
        putAll_section hstr (by rw [List.length_singleton]; omega)]
      have hsec : (⟨x.1, [⟨e.1, e.2⟩] ++ es.map fun e => ⟨e.1, e.2⟩⟩ : StlIniSection) =
          Doc.toSection x := by
        rw [Doc.toSection, hes]
        rfl
      rw [hsec, ih hn' (by rw [List.length_append, List.length_singleton]; omega) hitems'
        hfree.2 ?_]
      · simp
      · intro s hs y hy hy'
        rcases List.mem_append.mp hs with hs | hs
        · exact hL' s hs y hy hy'
        · rw [List.mem_singleton.mp hs]
          exact hfree.1 y (List.mem_filter.mpr ⟨hy, by simpa using hy'⟩)

end Faithful

section Search

theorem Doc.value_none {doc : Doc} {name : Str} (h : ∀ x ∈ doc, x.1 ≠ name) (key : Str) :
    doc.value name key = none := by
  rw [Doc.value, List.find?_eq_none.mpr (by simpa using h)]
  rfl

/-- A clear key finds in the stored section the pair that carries it. -/
theorem find?_toSection {x : Str × List (Str × Str)} {key : Str} (hkey : IsStr key)
    (hc : ∀ e ∈ x.2, key <+: e.1 → e.1 = key) :
    (Doc.toSection x).items.find? (fun y => sameName y.key key) =
      (x.2.find? fun e => e.1 = key).map fun e => ⟨e.1, e.2⟩ := by
  rw [Doc.toSection, List.find?_map]
  congr 1
  apply List.find?_congr
  intro e he
  rw [Function.comp_apply, Bool.eq_iff_iff, sameName_iff hkey, decide_eq_true_iff]
  constructor
  · exact hc e he
  · intro hek
    exact hek ▸ List.prefix_refl _

/-- A clear query finds in the stored sections what the document says. -/
theorem search_stored {doc : Doc} {name key : Str} {v : Option Str} (hname : IsStr name)
    (hkey : IsStr key) (hd : (doc.map Prod.fst).Nodup) (hc : doc.Clear name key) :
    doc.stored.foldl (fun value s =>
      if sameName s.name name then
        match s.items.find? fun x => sameName x.key key with
        | some x => some x.val
        | none => value
      else value) v = (doc.value name key).or v := by
  induction doc generalizing v with
  | nil => rfl
  | cons x doc ih =>
    rw [List.map_cons, List.nodup_cons] at hd
    have hc' : Doc.Clear doc name key :=
      ⟨fun y hy => hc.section_eq y (List.mem_cons_of_mem x hy),
        fun y hy => hc.item_eq y (List.mem_cons_of_mem x hy)⟩
    have hlater : x.1 = name → Doc.value doc name key = none := by
      rintro rfl
      refine Doc.value_none ?_ key
      intro y hy hyx
      exact hd.1 (List.mem_map.mpr ⟨y, hy, hyx⟩)
    have hval : Doc.value (x :: doc) name key = if x.1 = name then
        (x.2.find? fun e => e.1 = key).map Prod.snd else Doc.value doc name key := by
      by_cases hx : x.1 = name
      · rw [if_pos hx, Doc.value, List.find?_cons_of_pos (by simp [hx])]
        rfl
      · rw [if_neg hx, Doc.value, List.find?_cons_of_neg (by simp [hx])]
        rfl
    rw [hval]
    by_cases hx : x.2 = []
    · have hstored : Doc.stored (x :: doc) = Doc.stored doc := by
        rw [Doc.stored, List.filter_cons_of_neg (by simp [hx]), Doc.stored]
      rw [hstored, ih hd.2 hc']
      by_cases hxn : x.1 = name
      · rw [hlater hxn, if_pos hxn, hx]
        rfl
      · rw [if_neg hxn]
    · have hstored : Doc.stored (x :: doc) = Doc.toSection x :: Doc.stored doc := by
        rw [Doc.stored, List.filter_cons_of_pos (by simp [hx]), List.map_cons, Doc.stored]
      rw [hstored, List.foldl_cons, ih hd.2 hc']
      by_cases hxn : x.1 = name
      · have hfind := find?_toSection hkey (hc.item_eq x (by simp) hxn)
        have hsame : sameName (Doc.toSection x).name name = true :=
          (sameName_iff hname).mpr (by rw [← hxn]; exact List.prefix_refl _)
        rw [if_pos hxn, hlater hxn, Option.none_or, if_pos hsame, hfind]
        cases x.2.find? fun e => e.1 = key <;> rfl
      · have hsame : sameName (Doc.toSection x).name name = false :=
          sameName_false hname fun hp => hxn (hc.section_eq x (by simp) hp)
        rw [if_neg hxn, hsame, if_neg Bool.false_ne_true]

end Search

namespace Doc

theorem value_no_items {doc : Doc} (h : doc.items = []) (name key : Str) :
    doc.value name key = none := by
  rw [value, Option.bind_eq_none_iff]
  intro x hx
  have hnil : x.2 = [] := by
    rw [items, List.flatMap_eq_nil_iff] at h
    exact List.map_eq_nil_iff.mp (h x (List.mem_of_find?_eq_some hx))
  rw [hnil]
  rfl

theorem Valid.value_empty {doc : Doc} (h : doc.Valid) : doc.value [] [] = none := by
  refine value_none ?_ []
  intro x hx hnil
  have hpos := (h.names x hx).1
  rw [hnil] at hpos
  exact absurd hpos (by decide)

/-- Searches are exact on every name only for a text without items. Beyond that they are exact
where no stored name continues another one that is asked for or stored later. -/
theorem search_exact_iff {doc : Doc} (h : doc.Valid) (fin : Bool) :
    (doc.Answers fin ↔ doc.items = []) ∧
      (doc.Small → doc.PrefixFree →
        ∃ ini, stlIniParseString ⟨[]⟩ (text fin doc.lines) = some (ini, 0) ∧
          ∀ name key, IsStr name → IsStr key → doc.Clear name key →
            stlIniSearch ini name key = doc.value name key) := by
  constructor
  · constructor
    · rintro ⟨ini, hparse, hsearch⟩
      by_contra hitems
      rw [h.parse_text fin, Option.map_eq_some_iff] at hparse
      obtain ⟨ini', hput, heq⟩ := hparse
      obtain rfl : ini' = ini := congrArg Prod.fst heq
      have hfilled : Filled ⟨[]⟩ := by
        intro s hs
        cases hs
      obtain ⟨hf, hne⟩ := putAll_filled hfilled hput
      have hsome := search_empty hf (hne hitems)
      rw [hsearch [] [] (by simp [IsStr]) (by simp [IsStr]), h.value_empty] at hsome
      exact absurd hsome (by decide)
    · intro hitems
      refine ⟨⟨[]⟩, ?_, ?_⟩
      · rw [h.parse_text fin, hitems]
        rfl
      · intro name key _ _
        rw [value_no_items hitems]
        rfl
  · intro hsmall hfree
    have hput := putAll_doc (fun x hx => (h.names x hx).isStr) (by simpa using hsmall.sections) hsmall.items hfree
      (L := []) (by simp)
    refine ⟨⟨doc.stored⟩, ?_, ?_⟩
    · rw [h.parse_text fin, hput]
      rfl
    · intro name key hname hkey hc
      have hfound := search_stored (v := none) hname hkey h.distinct hc
      rw [Option.or_none] at hfound
      exact hfound

/-- Two sections that give their key `k` the values `1` and `2`. -/
def twoSections (a b : Str) : Doc := [(a, [([chr 'k'], [chr '1'])]), (b, [([chr 'k'], [chr '2'])])]

theorem search_exact_iff_two :
    ¬ (twoSections [chr 'a', chr 'b'] [chr 'c']).Answers true ∧
      ∃ ini, stlIniParseString ⟨[]⟩ (text true (twoSections [chr 'a', chr 'b'] [chr 'c']).lines) =
          some (ini, 0) ∧
        stlIniSearch ini [chr 'c'] [chr 'k'] = some [chr '2'] := by
  have hv : (twoSections [chr 'a', chr 'b'] [chr 'c']).Valid :=
    ⟨by decide, by decide, by decide, by decide⟩
  obtain ⟨hexact, hclear⟩ := search_exact_iff hv true
  constructor
  · rw [hexact]
    decide
  · obtain ⟨ini, hparse, hsearch⟩ := hclear ⟨by decide, by decide⟩ (by decide)
    refine ⟨ini, hparse, ?_⟩
    rw [hsearch [chr 'c'] [chr 'k'] (by decide) (by decide) ⟨by decide, by decide⟩]
    decide

/-- In `[abc]` with `k=1` followed by `[ab]` with `k=2` the second item lands in the first section. -/
theorem search_inexact :
    (twoSections [chr 'a', chr 'b', chr 'c'] [chr 'a', chr 'b']).Valid ∧
      stlIniParseString ⟨[]⟩
          (text true (twoSections [chr 'a', chr 'b', chr 'c'] [chr 'a', chr 'b']).lines) =
        some (⟨[⟨[chr 'a', chr 'b', chr 'c'], [⟨[chr 'k'], [chr '1']⟩, ⟨[chr 'k'], [chr '2']⟩]⟩]⟩, 0) ∧
      stlIniSearch ⟨[⟨[chr 'a', chr 'b', chr 'c'],
          [⟨[chr 'k'], [chr '1']⟩, ⟨[chr 'k'], [chr '2']⟩]⟩]⟩ [chr 'a', chr 'b'] [chr 'k'] =
        some [chr '1'] ∧
      ¬ (twoSections [chr 'a', chr 'b', chr 'c'] [chr 'a', chr 'b']).Answers true := by
  have hparse : stlIniParseString ⟨[]⟩
      (text true (twoSections [chr 'a', chr 'b', chr 'c'] [chr 'a', chr 'b']).lines) =
      some (⟨[⟨[chr 'a', chr 'b', chr 'c'], [⟨[chr 'k'], [chr '1']⟩, ⟨[chr 'k'], [chr '2']⟩]⟩]⟩, 0) := by
    decide +kernel
  refine ⟨⟨by decide, by decide, by decide, by decide⟩, hparse, by decide, ?_⟩
  rintro ⟨ini, hini, hsearch⟩
  rw [hparse] at hini
  obtain rfl := congrArg Prod.fst (Option.some.inj hini)
  have hfound := hsearch [chr 'a', chr 'b'] [chr 'k'] (by decide) (by decide)
  exact absurd hfound (by decide)

end Doc

end KirinFS.Ini
