import KirinFS.Ini.Lookup

/-! # Changing a parsed ini

`stl_ini_put` and `stl_ini_del` take the first section that the name starts,
and their items are found by prefix as well. A put appends behind the item that
a search finds. A deletion counts an item off whether it has found one or not.
-/

namespace KirinFS.Ini
open Foundation.CString

/-- The section loop of `stl_ini_put` and `stl_ini_del`, with what happens to the section it stops
at. Without one the result is -1. -/
def atFirst (name : Str) (f : StlIniSection → Option (StlIniSection × ℤ)) :
    List StlIniSection → Option (List StlIniSection × ℤ)
  | [] => some ([], -1)
  | s :: l =>
    if sameName s.name name then (f s).map fun r => (r.1 :: l, r.2)
    else (atFirst name f l).map fun r => (s :: r.1, r.2)

def stlIniPut (ini : StlIni) (name key val : Str) : Option (StlIni × ℤ) :=
  (atFirst name (fun s =>
    if s.items.any fun x => sameName x.key key then
      (stlIniSectionPutConf s key val).map fun s => (s, 0)
    else some (s, -1)) ini.sections).map fun r => (⟨r.1⟩, r.2)

/-- `stl_ini_section_del_conf`: the first loop stops at item `i`, the second one moves all items
behind it, and the count goes down. The second loop reads `items[cnt]`, which has to be in the
array. Without items the count wraps around, and there are not as many items (`none`). -/
def stlIniSectionDelConf (sis : StlIniSection) (key : Str) : Option StlIniSection :=
  let i := sis.items.findIdx fun x => sameName x.key key
  if sis.items = [] then none
  else if i < sis.items.length ∧ sectionMaxItemSize ≤ sis.items.length then none
  else some { sis with items := (sis.items.eraseIdx i).take (sis.items.length - 1) }

/-- `stl_ini_del`; it always returns -1. -/
def stlIniDel (ini : StlIni) (name key : Str) : Option (StlIni × ℤ) :=
  (atFirst name (fun s => (stlIniSectionDelConf s key).map fun s => (s, -1))
    ini.sections).map fun r => (⟨r.1⟩, r.2)

variable {ini : StlIni} {name key val : Str} {f : StlIniSection → Option (StlIniSection × ℤ)}
  {L R l : List StlIniSection} {s : StlIniSection}

theorem atFirst_none (h : ∀ s ∈ l, sameName s.name name = false) :
    atFirst name f l = some (l, -1) := by
  induction l with
  | nil => rfl
  | cons s l ih =>
    rw [atFirst, h s (by simp), if_neg Bool.false_ne_true,
      ih fun t ht => h t (List.mem_cons_of_mem s ht)]
    rfl

theorem atFirst_append (hL : ∀ t ∈ L, sameName t.name name = false)
    (hs : sameName s.name name = true) :
    atFirst name f (L ++ s :: R) = (f s).map fun r => (L ++ r.1 :: R, r.2) := by
  induction L with
  | nil =>
    rw [List.nil_append, atFirst, if_pos hs]
    rfl
  | cons t L ih =>
    rw [List.cons_append, atFirst, hL t (by simp), if_neg Bool.false_ne_true,
      ih fun u hu => hL u (List.mem_cons_of_mem t hu), Option.map_map]
    rfl

theorem find?_cases {E : Type} (p : E → Bool) (l : List E) :
    (l.find? p = none ∧ ∀ a ∈ l, p a = false) ∨
      ∃ A a B, l = A ++ a :: B ∧ l.find? p = some a ∧ p a = true ∧ ∀ b ∈ A, p b = false := by
  cases hfind : l.find? p with
  | none => exact Or.inl ⟨rfl, by simpa using hfind⟩
  | some a =>
    obtain ⟨ha, A, B, rfl, hA⟩ := List.find?_eq_some_iff_append.mp hfind
    exact Or.inr ⟨A, a, B, rfl, rfl, ha, fun b hb => by simpa using hA b hb⟩

section Put

/-- A put that reports success shows in the search for its key and in no other; one that fails
changes nothing. -/
def PutVisible (ini : StlIni) (name key val : Str) : Prop :=
  ∃ ini' r, stlIniPut ini name key val = some (ini', r) ∧
    (r = 0 → stlIniSearch ini' name key = some val ∧
      ∀ name' key', IsStr name' → IsStr key' → (name', key') ≠ (name, key) →
        stlIniSearch ini' name' key' = stlIniSearch ini name' key') ∧
    (r ≠ 0 → r = -1 ∧ ini' = ini)

/-- An item behind one whose key continues its own is never found. -/
theorem search_hidden {x y : StlIniItem} (hy : y ∈ s.items) (hxy : x.key <+: y.key)
    {name' key' : Str} (hkey' : IsStr key') :
    stlIniSearch ⟨L ++ { s with items := s.items ++ [x] } :: R⟩ name' key' =
      stlIniSearch ⟨L ++ s :: R⟩ name' key' := by
  have hfind : ((s.items ++ [x]).find? fun z => sameName z.key key') =
      s.items.find? fun z => sameName z.key key' := by
    rw [List.find?_append]
    cases hold : s.items.find? fun z => sameName z.key key' with
    | some z => rfl
    | none =>
      have hmiss := List.find?_eq_none.mp hold y hy
      rw [sameName_iff hkey'] at hmiss
      rw [Option.none_or, List.find?_cons_of_neg, List.find?_nil]
      rw [sameName_iff hkey']
      exact fun h => hmiss (h.trans hxy)
  simp only [stlIniSearch, List.foldl_append, List.foldl_cons, hfind]

theorem put_none (hno : ∀ s ∈ ini.sections, sameName s.name name = false) :
    stlIniPut ini name key val = some (ini, -1) := by
  rw [stlIniPut, atFirst_none hno]
  rfl

theorem put_eq (hsec : ini.sections = L ++ s :: R) (hs : sameName s.name name = true)
    (hL : ∀ t ∈ L, sameName t.name name = false) :
    stlIniPut ini name key val =
      if ∃ x ∈ s.items, sameName x.key key = true then
        if s.items.length < sectionMaxItemSize then
          some (⟨L ++ { s with items := s.items ++ [⟨key, val⟩] } :: R⟩, 0)
        else none
      else some (ini, -1) := by
  rw [stlIniPut, hsec, atFirst_append hL hs, stlIniSectionPutConf]
  simp only [List.any_eq_true]
  split
  · split <;> rfl
  · rw [Option.map_some, Option.map_some, ← hsec]

/-- A put never changes what a search finds. -/
theorem put_visible_iff (hkey : IsStr key) :
    PutVisible ini name key val ↔
      ∀ s, (ini.sections.find? fun s => sameName s.name name) = some s →
        (∃ x ∈ s.items, sameName x.key key = true) →
          s.items.length < sectionMaxItemSize ∧ stlIniSearch ini name key = some val := by
  rcases find?_cases (fun s => sameName s.name name) ini.sections with
    ⟨hfind, hno⟩ | ⟨L, s, R, hsec, hfind, hs, hL⟩
  · rw [hfind]
    refine iff_of_true ⟨ini, -1, put_none hno, fun h => ?_, fun _ => ⟨rfl, rfl⟩⟩ fun s h => ?_
    · cases h
    · cases h
  · rw [hfind, PutVisible, put_eq hsec hs hL]
    by_cases hx : ∃ x ∈ s.items, sameName x.key key = true
    · obtain ⟨x, hxs, hsame⟩ := id hx
      have hsearch : ∀ name' key', IsStr key' →
          stlIniSearch ⟨L ++ { s with items := s.items ++ [⟨key, val⟩] } :: R⟩ name' key' =
            stlIniSearch ini name' key' := by
        intro name' key' hkey'
        have hunder := (sameName_iff hkey).mp hsame
        rw [@search_hidden L R s ⟨key, val⟩ x hxs hunder name' key' hkey', ← hsec]
      rw [if_pos hx]
      by_cases hroom : s.items.length < sectionMaxItemSize
      · rw [if_pos hroom]
        constructor
        · rintro ⟨ini', r, heq, hok, -⟩ t ht -
          cases heq
          cases ht
          exact ⟨hroom, (hsearch name key hkey).symm.trans (hok rfl).1⟩
        · intro h
          refine ⟨_, _, rfl, fun _ => ⟨?_, ?_⟩, fun hne => absurd rfl hne⟩
          · rw [hsearch name key hkey]
            exact (h s rfl hx).2
          · exact fun name' key' _ hkey' _ => hsearch name' key' hkey'
      · rw [if_neg hroom]
        refine iff_of_false ?_ fun h => hroom (h s rfl hx).1
        rintro ⟨ini', r, heq, -⟩
        cases heq
    · rw [if_neg hx]
      refine iff_of_true ⟨ini, -1, rfl, fun h => ?_, fun _ => ⟨rfl, rfl⟩⟩ fun t ht hhit => ?_
      · cases h
      · cases ht
        exact absurd hhit hx

end Put

section Del

/-- Exactly one item with this key goes from the section of this name. -/
def Removed (ini ini' : StlIni) (name key : Str) : Prop :=
  ∃ L s R A x B, ini.sections = L ++ s :: R ∧ s.name = name ∧ s.items = A ++ x :: B ∧ x.key = key ∧
    ini'.sections = L ++ { s with items := A ++ B } :: R

/-- A deletion removes one item if there is one to remove, and changes nothing otherwise. -/
def DeletesOne (ini : StlIni) (name key : Str) : Prop :=
  ∃ ini' r, stlIniDel ini name key = some (ini', r) ∧
    if ∃ s ∈ ini.sections, s.name = name ∧ ∃ x ∈ s.items, x.key = key then
      Removed ini ini' name key
    else ini' = ini

theorem delConf_length {s' : StlIniSection} (h : stlIniSectionDelConf s key = some s') :
    s'.name = s.name ∧ s'.items.length + 1 = s.items.length := by
  rw [stlIniSectionDelConf] at h
  split at h
  · cases h
  · rename_i hne
    have hpos := List.length_pos_iff.mpr hne
    split at h
    · cases h
    · cases h
      refine ⟨rfl, ?_⟩
      dsimp only
      rw [List.length_take, List.length_eraseIdx]
      split <;> omega

/-- What goes is the first item whose key continues the given one. -/
theorem delConf_found {A B : List StlIniItem} {x : StlIniItem} (hs : s.items = A ++ x :: B)
    (hA : ∀ y ∈ A, sameName y.key key = false) (hx : sameName x.key key = true) :
    stlIniSectionDelConf s key = if s.items.length < sectionMaxItemSize then
      some { s with items := A ++ B } else none := by
  have hidx : (s.items.findIdx fun y => sameName y.key key) = A.length := by
    rw [hs, List.findIdx_append, if_neg, List.findIdx_cons, hx]
    · simp
    · rw [List.findIdx_lt_length]
      rintro ⟨y, hy, hhit⟩
      rw [hA y hy] at hhit
      cases hhit
  have hlen : s.items.length = A.length + (B.length + 1) := by
    rw [hs, List.length_append, List.length_cons]
  have herase : (s.items.eraseIdx A.length).take (s.items.length - 1) = A ++ B := by
    rw [hs, List.eraseIdx_append_of_length_le (Nat.le_refl _), Nat.sub_self, List.eraseIdx_zero,
      List.tail_cons]
    apply List.take_of_length_le
    rw [List.length_append, List.length_append, List.length_cons]
    omega
  have hne : s.items ≠ [] := by
    rw [hs]
    simp
  rw [stlIniSectionDelConf, hidx, herase, if_neg hne]
  by_cases hroom : s.items.length < sectionMaxItemSize
  · rw [if_pos hroom, if_neg fun h => absurd hroom (Nat.not_lt_of_le h.2)]
  · rw [if_neg hroom, if_pos ⟨by omega, Nat.le_of_not_lt hroom⟩]

/-- Lists that agree but for one place, where both have something new. -/
theorem same_place {E : Type} {A B A' B' : List E} {a b a' b' : E} (ha : a ≠ b)
    (hb : a' ≠ b') (hold : A ++ a :: B = A' ++ a' :: B') (hnew : A ++ b :: B = A' ++ b' :: B') :
    a = a' ∧ b = b' := by
  rcases Nat.lt_trichotomy A.length A'.length with hlt | heq | hgt
  · have h₁ := congrArg (fun l => l[A.length]?) hold
    have h₂ := congrArg (fun l => l[A.length]?) hnew
    simp only [List.getElem?_append_left hlt, List.getElem?_append_right (Nat.le_refl _),
      Nat.sub_self, List.getElem?_cons_zero] at h₁ h₂
    exact absurd (Option.some.inj (h₁.trans h₂.symm)) ha
  · obtain ⟨rfl, h₁⟩ := List.append_inj hold heq
    have h₂ := List.append_cancel_left hnew
    exact ⟨(List.cons.inj h₁).1, (List.cons.inj h₂).1⟩
  · have h₁ := congrArg (fun l => l[A'.length]?) hold
    have h₂ := congrArg (fun l => l[A'.length]?) hnew
    simp only [List.getElem?_append_left hgt, List.getElem?_append_right (Nat.le_refl _),
      Nat.sub_self, List.getElem?_cons_zero] at h₁ h₂
    exact absurd (Option.some.inj (h₁.symm.trans h₂)) hb

/-- Taking out the first match is taking out an item with the key only if it carries the key. -/
theorem key_of_removed {A B A' B' : List StlIniItem} {x y : StlIniItem} (hy : y.key = key)
    (hold : A ++ x :: B = A' ++ y :: B') (hnew : A ++ B = A' ++ B') : x.key = key := by
  have hcount := congrArg (List.countP fun z => decide (z.key = key)) hold
  have hleft := congrArg (List.countP fun z => decide (z.key = key)) hnew
  simp only [List.countP_append, List.countP_cons, hy, decide_true, if_true] at hcount hleft
  by_contra hx
  rw [decide_eq_false hx, if_neg Bool.false_ne_true] at hcount
  omega

theorem del_none (hno : ∀ s ∈ ini.sections, sameName s.name name = false) :
    stlIniDel ini name key = some (ini, -1) := by
  rw [stlIniDel, atFirst_none hno]
  rfl

theorem del_eq (hsec : ini.sections = L ++ s :: R) (hs : sameName s.name name = true)
    (hL : ∀ t ∈ L, sameName t.name name = false) :
    stlIniDel ini name key =
      (stlIniSectionDelConf s key).map fun s' => (⟨L ++ s' :: R⟩, -1) := by
  rw [stlIniDel, hsec, atFirst_append hL hs, Option.map_map, Option.map_map]
  rfl

/-- If a deletion does what it should, the first matches were exact. -/
theorem exact_of_deletesOne (hkey : IsStr key) (h : DeletesOne ini name key)
    (hsec : ini.sections = L ++ s :: R) (hs : sameName s.name name = true)
    (hL : ∀ t ∈ L, sameName t.name name = false) :
    s.name = name ∧ s.items.length < sectionMaxItemSize ∧
      ∃ x, (s.items.find? fun x => sameName x.key key) = some x ∧ x.key = key := by
  obtain ⟨ini', r, hrun, hwell⟩ := h
  rw [del_eq hsec hs hL] at hrun
  obtain ⟨s', hdel, heq⟩ := Option.map_eq_some_iff.mp hrun
  cases heq
  obtain ⟨-, hlen⟩ := delConf_length hdel
  have hchanged : s ≠ s' := by
    rintro rfl
    omega
  split at hwell
  · obtain ⟨L', t, R', A', y, B', hsec', htname, htitems, hy, hnew⟩ := hwell
    have hless : t ≠ { t with items := A' ++ B' } := by
      intro h
      have hitems := congrArg (fun u => u.items.length) h
      simp only [htitems, List.length_append, List.length_cons] at hitems
      omega
    obtain ⟨rfl, hs'⟩ := same_place hchanged hless (hsec.symm.trans hsec') hnew
    rcases find?_cases (fun x => sameName x.key key) s.items with
      ⟨-, hnone⟩ | ⟨A, x, B, hitems, hfirst, hx, hA⟩
    · have hmiss := hnone y (by rw [htitems]; simp)
      rw [hy, (sameName_iff hkey).mpr (List.prefix_refl _)] at hmiss
      cases hmiss
    · rw [delConf_found hitems hA hx] at hdel
      split at hdel
      · rename_i hroom
        have hrest : A ++ B = A' ++ B' :=
          congrArg StlIniSection.items ((Option.some.inj hdel).trans hs')
        exact ⟨htname, hroom, x, hfirst, key_of_removed hy (hitems.symm.trans htitems) hrest⟩
      · cases hdel
  · have hsame := congrArg StlIni.sections hwell
    rw [hsec] at hsame
    exact absurd (List.cons.inj (List.append_cancel_left hsame)).1.symm hchanged

/-- A deletion does what it should where the first matches are exact, as long as the array has room
behind the items. -/
theorem deletes_one_iff (hname : IsStr name) (hkey : IsStr key) :
    DeletesOne ini name key ↔
      ∀ s, (ini.sections.find? fun s => sameName s.name name) = some s →
        s.name = name ∧ s.items.length < sectionMaxItemSize ∧
          ∃ x, (s.items.find? fun x => sameName x.key key) = some x ∧ x.key = key := by
  rcases find?_cases (fun s => sameName s.name name) ini.sections with
    ⟨hfind, hno⟩ | ⟨L, s, R, hsec, hfind, hs, hL⟩
  · rw [hfind]
    refine iff_of_true ⟨ini, -1, del_none hno, ?_⟩ fun s h => by cases h
    rw [if_neg]
    rintro ⟨s, hmem, rfl, -⟩
    have hmiss := hno s hmem
    rw [(sameName_iff hname).mpr (List.prefix_refl _)] at hmiss
    cases hmiss
  · rw [hfind]
    constructor
    · intro h t ht
      cases ht
      exact exact_of_deletesOne hkey h hsec hs hL
    · intro h
      obtain ⟨hsname, hroom, x, hfirst, hx⟩ := h s rfl
      rcases find?_cases (fun x => sameName x.key key) s.items with
        ⟨hnone, -⟩ | ⟨A, y, B, hitems, hfirst', hy, hA⟩
      · rw [hnone] at hfirst
        cases hfirst
      · cases hfirst'.symm.trans hfirst
        refine ⟨⟨L ++ { s with items := A ++ B } :: R⟩, -1, ?_, ?_⟩
        · rw [del_eq hsec hs hL, delConf_found hitems hA hy, if_pos hroom]
          rfl
        · rw [if_pos]
          · exact ⟨L, s, R, A, x, B, hsec, hsname, hitems, hx, rfl⟩
          · exact ⟨s, by rw [hsec]; simp, hsname, x, by rw [hitems]; simp, hx⟩

end Del

section Examples

def twoKeys : StlIni :=
  ⟨[⟨[chr 's'], [⟨[chr 'k'], [chr '1']⟩, ⟨[chr 'j'], [chr '2']⟩]⟩]⟩

def twoKeysText : Str :=
  text true (Doc.lines [([chr 's'], [([chr 'k'], [chr '1']), ([chr 'j'], [chr '2'])])])

theorem put_visible_again : PutVisible twoKeys [chr 's'] [chr 'k'] [chr '1'] := by
  refine (put_visible_iff (by decide)).mpr fun s hs _ => ?_
  cases hs
  exact ⟨by decide, by decide⟩

/-- A put of another value reports success, and the search finds the old one. -/
theorem put_hidden : stlIniParseString ⟨[]⟩ twoKeysText = some (twoKeys, 0) ∧
    ((stlIniPut twoKeys [chr 's'] [chr 'k'] [chr '9']).map fun r =>
      (stlIniSearch r.1 [chr 's'] [chr 'k'], r.2)) = some (some [chr '1'], 0) ∧
    ¬ PutVisible twoKeys [chr 's'] [chr 'k'] [chr '9'] := by
  have hrun : ((stlIniPut twoKeys [chr 's'] [chr 'k'] [chr '9']).map fun r =>
      (stlIniSearch r.1 [chr 's'] [chr 'k'], r.2)) = some (some [chr '1'], 0) := by decide
  refine ⟨by decide +kernel, hrun, ?_⟩
  rintro ⟨ini', r, heq, hok, -⟩
  rw [heq, Option.map_some, Option.some.injEq, Prod.mk.injEq] at hrun
  exact absurd ((hok hrun.2).1.symm.trans hrun.1) (by decide)

theorem deletes_one_first : DeletesOne twoKeys [chr 's'] [chr 'k'] := by
  refine (deletes_one_iff (by decide) (by decide)).mpr fun s hs => ?_
  cases hs
  exact ⟨rfl, by decide, _, rfl, rfl⟩

/-- Deleting a key that is absent drops the last item. -/
theorem deletes_other : stlIniParseString ⟨[]⟩ twoKeysText = some (twoKeys, 0) ∧
    stlIniDel twoKeys [chr 's'] [chr 'x'] =
      some (⟨[⟨[chr 's'], [⟨[chr 'k'], [chr '1']⟩]⟩]⟩, -1) ∧
    ¬ DeletesOne twoKeys [chr 's'] [chr 'x'] := by
  have hrun : stlIniDel twoKeys [chr 's'] [chr 'x'] =
      some (⟨[⟨[chr 's'], [⟨[chr 'k'], [chr '1']⟩]⟩]⟩, -1) := by decide
  refine ⟨by decide +kernel, hrun, ?_⟩
  rintro ⟨ini', r, heq, hwell⟩
  rw [if_neg (by decide)] at hwell
  have hsame := congrArg Prod.fst (Option.some.inj (hrun.symm.trans heq))
  rw [hwell] at hsame
  dsimp only at hsame
  exact absurd hsame (by decide)

end Examples

end KirinFS.Ini
