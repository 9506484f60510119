import KirinFS.Ini.Lookup

/-! # What a parse stores

Names, keys and values are pieces of lines without their comments. A key may
still look like a comment, end in a blank where the buffer cut it, or make a
line that is too long.
-/

namespace KirinFS.Ini
open Foundation.CString

structure Clean (s : Str) : Prop where
  str : IsStr s
  noEnd : NoEnd s
  plain : Plain s

theorem Clean.piece {s t : Str} (h : Clean s) (ht : t <:+: s) : Clean t :=
  ⟨fun c hc => h.str c (ht.subset hc), fun c hc => h.noEnd c (ht.subset hc), List.IsChain.infix h.plain ht⟩

structure StoredName (n : Str) : Prop where
  clean : Clean n
  noBracket : ∀ c ∈ n, c ≠ chr ']'
  short : n.length ≤ nameSize

structure StoredKey (k : Str) : Prop where
  clean : Clean k
  noSep : ∀ c ∈ k, c ≠ chr '=' ∧ c ≠ chr ':'
  starts : ∀ c ∈ k.head?, isspace c = false ∧ c ≠ chr '['
  short : k.length < maxLineLen - 1

structure StoredValue (v : Str) : Prop where
  clean : Clean v
  bare : Bare v

theorem clean_nil : Clean [] := ⟨by simp [IsStr], by simp [NoEnd], List.isChain_nil⟩

theorem storedName_nil : StoredName [] := ⟨clean_nil, by simp, Nat.zero_le _⟩

theorem storedKey_nil : StoredKey [] := ⟨clean_nil, by simp, by simp, by decide⟩

theorem StoredKey.begin {k t : Str} (h : StoredKey k) (ht : t <+: k) : StoredKey t where
  clean := h.clean.piece ht.isInfix
  noSep := fun c hc => h.noSep c (ht.subset hc)
  starts := by
    intro c hc
    obtain ⟨r, rfl⟩ := ht
    cases t with
    | nil => cases hc
    | cons d t => exact h.starts c hc
  short := lt_of_le_of_lt ht.length_le h.short

structure Delivered (l : Str) : Prop where
  str : IsStr l
  noEnd : NoEnd l
  short : l.length ≤ maxLineLen - 1

section Line
variable {key l : Str}

def Line.Stored : Line → Prop
  | .blank => True
  | .header n => StoredName n
  | .item k v next => StoredKey k ∧ StoredValue v ∧ StoredKey next
  | .bad => True

theorem headOf_str (first : Bool) (l : Str) :
    ∃ t, t <:+: l ∧ (headOf first l).str = trimmed (trimComment t) := by
  have hbom : (trimBom ⟨0, l⟩).str <:+: l := by
    rw [trimBom]
    split
    · exact (List.drop_suffix 3 l).isInfix
    · exact List.infix_rfl
  cases first with
  | false => exact ⟨l, List.infix_rfl, rfl⟩
  | true => exact ⟨_, hbom, rfl⟩

theorem readHead_stored {head : Cursor} (hc : Clean head.str) (hb : Bare head.str)
    (hlen : head.str.length ≤ maxLineLen - 1) (hkey : StoredKey key) :
    (readHead key head).Stored := by
  rw [readHead]
  split
  · trivial
  · split
    · exact ⟨hkey, ⟨hc, hb⟩, hkey⟩
    · split
      · cases hcut : cutAt (fun c => c = chr ']') head.str with
        | none => trivial
        | some r =>
          obtain ⟨c, hs, -, hno⟩ := cutAt_some hcut
          have hpiece : (r.1.drop 1).take nameSize <:+: r.1 :=
            (List.take_prefix _ _).isInfix.trans (List.drop_suffix _ _).isInfix
          refine ⟨hc.piece (hpiece.trans ?_), ?_, List.length_take_le _ _⟩
          · rw [hs]
            exact (List.prefix_append _ _).isInfix
          · intro x hx
            simpa using hno x (hpiece.subset hx)
      · rename_i hbracket
        cases hcut : cutAt (fun c => c = chr '=' || c = chr ':') head.str with
        | none => trivial
        | some r =>
          obtain ⟨k, v⟩ := r
          obtain ⟨c, hs, -, hno⟩ := cutAt_some hcut
          have hpre : k <+: head.str := by
            rw [hs]
            exact List.prefix_append _ _
          have hk : StoredKey k := by
            refine ⟨hc.piece hpre.isInfix, fun x hx => by simpa using hno x hx, ?_, ?_⟩
            · intro x hx
              have hx' : head.str.head? = some x := by
                rw [hs]
                cases k with
                | nil => cases hx
                | cons d k => exact hx
              refine ⟨hb.1 x hx', ?_⟩
              rintro rfl
              exact hbracket hx'
            · have hsum := congrArg List.length hs
              rw [List.length_append, List.length_cons] at hsum
              omega
          have hin : trimInPlace k <+: k := by
            rw [trimInPlace_eq fun x hx => (hk.starts x hx).1]
            exact trimmed_begins fun x hx => (hk.starts x hx).1
          refine ⟨hk.begin hin, ⟨hc.piece ((trimmed_piece v).trans ?_), trimmed_bare v⟩,
            hk.begin ((List.take_prefix _ _).trans hin)⟩
          rw [hs, List.append_cons]
          exact (List.suffix_append _ _).isInfix

theorem readLine_stored (first : Bool) (hl : Delivered l) (hkey : StoredKey key) :
    (readLine first key l).Stored := by
  obtain ⟨t, ht, hstr⟩ := headOf_str first l
  have hpiece : trimComment t <:+: l := (trimComment_begins t).isInfix.trans ht
  have hcom : Clean (trimComment t) :=
    ⟨fun c hc => hl.str c (hpiece.subset hc), fun c hc => hl.noEnd c (hpiece.subset hc),
      plain_trimComment t⟩
  refine readHead_stored ?_ ?_ ?_ hkey
  · rw [hstr]
    exact hcom.piece (trimmed_piece _)
  · rw [hstr]
    exact trimmed_bare _
  · rw [hstr]
    exact (((trimmed_piece _).trans hpiece).length_le).trans hl.short

end Line

section Sections
variable {ini ini' : StlIni} {name key value : Str}

structure StoredSection (s : StlIniSection) : Prop where
  name : StoredName s.name
  items : ∀ e ∈ s.items, StoredKey e.key ∧ StoredValue e.val
  filled : s.items ≠ []
  room : s.items.length ≤ sectionMaxItemSize

/-- What holds of an ini that was parsed. -/
structure StoredIni (ini : StlIni) : Prop where
  sections : ∀ s ∈ ini.sections, StoredSection s
  distinct : ini.sections.Pairwise fun s t => ¬ t.name <+: s.name
  room : ini.sections.length ≤ sectionMaxSize

theorem storedIni_empty : StoredIni ⟨[]⟩ := ⟨by simp, List.Pairwise.nil, Nat.zero_le _⟩

theorem StoredIni.onItem (hi : StoredIni ini) (hn : StoredName name) (hk : StoredKey key)
    (hv : StoredValue value) (h : stlIniOnItemFunc ini name key value = some ini') :
    StoredIni ini' := by
  rcases onItem_cases h with ⟨L, s, R, hsec, -, hroom, hsec'⟩ | ⟨hno, hroom, hsec'⟩
  · have hs := hi.sections s (by rw [hsec]; simp)
    have hd := hi.distinct
    rw [hsec, List.pairwise_append, List.pairwise_cons] at hd
    refine ⟨?_, ?_, ?_⟩
    · intro t ht
      rw [hsec', List.mem_append, List.mem_cons] at ht
      rcases ht with ht | rfl | ht
      · exact hi.sections t (by rw [hsec]; simp [ht])
      · refine ⟨hs.name, ?_, by simp, ?_⟩
        · intro e he
          rcases List.mem_append.mp he with he | he
          · exact hs.items e he
          · rw [List.mem_singleton.mp he]
            exact ⟨hk, hv⟩
        · rw [List.length_append, List.length_singleton]
          exact hroom
      · exact hi.sections t (by rw [hsec]; simp [ht])
    · rw [hsec', List.pairwise_append, List.pairwise_cons]
      refine ⟨hd.1, hd.2.1, ?_⟩
      intro a ha b hb
      rcases List.mem_cons.mp hb with rfl | hb
      · exact hd.2.2 a ha s (by simp)
      · exact hd.2.2 a ha b (List.mem_cons_of_mem s hb)
    · have hlen := hi.room
      rw [hsec] at hlen
      rw [hsec']
      simpa using hlen
  · refine ⟨?_, ?_, ?_⟩
    · intro t ht
      rw [hsec', List.mem_append, List.mem_singleton] at ht
      rcases ht with ht | rfl
      · exact hi.sections t ht
      · refine ⟨hn, ?_, by simp, by rw [List.length_singleton]; decide⟩
        intro e he
        rw [List.mem_singleton.mp he]
        exact ⟨hk, hv⟩
    · rw [hsec', List.pairwise_append]
      refine ⟨hi.distinct, List.pairwise_singleton _ _, ?_⟩
      intro a ha b hb
      rw [List.mem_singleton.mp hb]
      intro hpre
      have hfalse := hno a ha
      rw [(sameName_iff hn.clean.str).mpr hpre] at hfalse
      cases hfalse
    · rw [hsec', List.length_append, List.length_singleton]
      exact hroom

/-- Every run of the parser keeps what holds of a parsed ini. -/
theorem StoredIni.runLines {ls : List Str} (hls : ∀ l ∈ ls, Delivered l) (st : ParseState)
    (hi : StoredIni st.ini) (hn : StoredName st.sectionName) (hk : StoredKey st.key) {rc : ℤ}
    (h : runLines st ls = some (ini', rc)) : StoredIni ini' := by
  induction ls generalizing st with
  | nil =>
    cases h
    exact hi
  | cons l ls ih =>
    have hrest : ∀ l ∈ ls, Delivered l := fun x hx => hls x (List.mem_cons_of_mem l hx)
    have hline := readLine_stored (decide (st.line + 1 = 1)) (hls l (by simp)) hk
    rw [Ini.runLines, parseLine_eq] at h
    cases hr : readLine (decide (st.line + 1 = 1)) st.key l with
    | blank =>
      rw [hr] at h
      exact ih hrest { st with line := st.line + 1 } hi hn hk h
    | header n =>
      rw [hr] at h hline
      exact ih hrest { st with line := st.line + 1, key := [], sectionName := n }
        hi hline storedKey_nil h
    | item k v next =>
      rw [hr] at h hline
      obtain ⟨hk', hv', hnext⟩ := hline
      obtain ⟨r, hmap, h⟩ := Option.bind_eq_some_iff.mp h
      obtain ⟨ini, hput, rfl⟩ := Option.map_eq_some_iff.mp hmap
      exact ih hrest { st with line := st.line + 1, ini := ini, key := next }
        (hi.onItem hn hk' hv' hput) hn hnext h
    | bad =>
      rw [hr] at h
      cases h
      exact hi

theorem StoredIni.parseString {s : Str} (hs : IsStr s) {rc : ℤ}
    (h : stlIniParseString ⟨[]⟩ s = some (ini, rc)) : StoredIni ini := by
  rw [parseString_eq_runLines] at h
  refine StoredIni.runLines ?_ _ storedIni_empty storedName_nil storedKey_nil h
  intro l hl
  obtain ⟨l', hl', rfl⟩ := List.mem_map.mp hl
  obtain ⟨hend, hsub⟩ := mem_textLines hl'
  have htake : ∀ c ∈ l'.take (maxLineLen - 1), c ∈ l' := fun c hc => List.mem_of_mem_take hc
  exact ⟨fun c hc => hs c (hsub c (htake c hc)), fun c hc => hend c (htake c hc),
    List.length_take_le _ _⟩

end Sections

end KirinFS.Ini
