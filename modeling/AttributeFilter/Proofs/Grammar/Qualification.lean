import AttributeFilter.Proofs.Grammar.Mirroring
import AttributeFilter.Proofs.Token.Naming

/-!
A schema in front of a text. The text says the same as before, with the schema for its outermost path, if
it begins with a name whose first character is a letter. A name that begins with a dollar sign is not
recognised behind a schema.
-/

namespace AttributeFilter

open Text Lexeme Grammar

-- The first lexeme of a text is a name. It is as long as possible and does not start a schema URI.
structure Text.LeadsIn (w t : Text) : Prop where
  name  : Token.Kind.identifier.Admits w
  whole : ∃ r, t = w ++ r ∧ r.Stops isWordChar
  noUri : startsUri t = false

variable {t u w : Text} {ts us : List Token} {l l' : Limits} {f? : Option Filter} {f : Filter}

theorem Text.LeadsIn.exists_cuts (h : w.LeadsIn t) : ∃ r, t = w ++ r ∧ Cuts .identifier w r := by
  have ⟨r, he, hr⟩ := h.whole
  have hk : Token.Kind.ofWord w = .identifier := by
    rw [Token.Kind.ofWord, Token.Kind.ofReserved?_eq_none_iff.mpr h.name.right]
    rfl
  exact ⟨r, he, hk ▸ cuts_word_of h.name.left (he ▸ h.noUri) hr⟩

-- The first token of the text is that name.
theorem Text.LeadsIn.isNext (h : w.LeadsIn t) (ht : tokenize t = .ok ts) :
    isNext [.identifier] ts = true := by
  have ⟨r, he, hc⟩ := h.exists_cuts
  have ⟨u, s, hk, _, hn, _⟩ := Scanner.next?_of_cuts hc (s := .ofText t) (.of_eq he)
  have hs := scan_eq_of_tokenize ht
  rw [Scanner.scan_of_token hn] at hs
  have hts : ts = u :: s.scan.tokens := (congrArg Scan.tokens hs).symm
  rw [hts, isNext_cons, hk]
  rfl

theorem Text.LeadsIn.takeWhile_ne_nil (h : w.LeadsIn t) (hl : w.BeginsWithLetter) :
    t.takeWhile isUriChar ≠ [] := by
  have ⟨r, he, _⟩ := h.whole
  have ⟨c, hc, hl⟩ := hl
  have hu : isUriChar c = true := by simp [isUriChar, isWordChar_of_isLetter hl]
  cases w
  case nil => cases hc
  case cons d w =>
    cases hc
    rw [he, List.cons_append, List.takeWhile_cons_of_pos hu]
    exact List.cons_ne_nil _ _

-- The schema and the colon are made in front of the tokens of the text.
theorem exists_tokenize_qualified (hu : IsSchemaUri u) (hn : t.takeWhile isUriChar ≠ [])
    (hc : ':' ∉ t.takeWhile isUriChar) (ht : tokenize t = .ok ts) :
    ∃ us, tokenize (u ++ ':' :: t) = .ok us ∧
      us.map Token.lexeme = (.schemaUri, u) :: (.colon, [':']) :: ts.map Token.lexeme := by
  have huri := Spells.lexeme (cuts_schemaUri hu hn hc)
  have hcolon := Spells.lexeme (cuts_mark (c := ':') rfl t)
  have htext := spells_of_tokenize (r := []) ht nofun
  rw [← List.append_nil t] at huri hcolon
  have hall := huri.andThen (hcolon.andThen htext)
  have ⟨⟨us, vs, ws⟩, ⟨hus, hvs, hws⟩, htok, _⟩ := tokenize_of_spells .nil .nil hall
  refine ⟨us ++ (vs ++ ws), ?_, ?_⟩
  · simpa using htok
  · rw [List.map_append, List.map_append, hus, hvs, hws]
    rfl

theorem parseTokens_of_sense (h : us.map Token.sense = ts.map Token.sense)
    (hd : l'.maxDepth = l.maxDepth) (hp : parseTokens l ts = .ok f?) : parseTokens l' us = .ok f? := by
  have hlength : ts.length = us.length := by simpa using (congrArg List.length h).symm
  have hm := parseTokens_mirror (paired_zip h) hd
  rw [List.map_fst_zip (Nat.le_of_eq hlength), List.map_snd_zip (Nat.le_of_eq hlength.symm), hp] at hm
  rcases hm with ⟨g?, hg, hg'⟩ | ⟨_, _, he, _⟩
  · cases hg; exact hg'
  · cases he

-- Tokens that begin with a name are still parsed with a schema in front.
theorem parseTokens_qualified (hlex : ∀ t ∈ ts, t.IsLexeme) (hn : isNext [.identifier] ts = true)
    (uri : Terminal [.schemaUri]) (colon : Terminal [.colon]) (hp : parseTokens l ts = .ok (some f))
    (hf : f.tree.IsSingle) :
    ∃ g, parseTokens l (uri.token :: colon.token :: ts) = .ok (some g) ∧ f.Qualifies uri.token.text g := by
  have ⟨t?, hy, hlay⟩ := parseTokens_eq_ok_iff.mp hp
  have ⟨d, hd, hm, hdepth⟩ := filter_sound factor_sound hy hlex
  rw [List.append_nil] at hd
  have ⟨e, he, t, ht, hq⟩ := Derivation.exists_filter_qualified uri colon (hd ▸ hn)
  have hof : Filter.ofTree t = .ok (some f) := by
    have h := hm.symm.trans ht
    subst h
    exact hlay
  have ⟨_, hof', htree⟩ := Filter.ofTree_tree (d.makeable t ht)
  cases hof.symm.trans hof'
  have hs : t.IsSingle := htree ▸ hf
  have ⟨g, hg, hfg⟩ := Filter.exists_ofTree_qualified hs hof uri.token.text
  refine ⟨g, ?_, hfg⟩
  rw [← hd, ← he.tokens]
  exact parseTokens_of_derivation e (he.depth ▸ hdepth) (by rw [hq hs]; exact hg)

-- What is parsed has no colon where it would be taken for one of a schema in front.
theorem colon_notMem_of_parseTokens (ht : tokenize t = .ok ts) (hn : isNext [.identifier] ts = true)
    (hp : parseTokens l ts = .ok f?) : ':' ∉ t.takeWhile isUriChar := by
  have ⟨d, hd, _⟩ := of_parseTokens (isLexeme_of_tokenize ht) hp
  have ⟨first, more, rest, he, hr⟩ := d.beginsWithName (hd ▸ hn)
  have hs : (Scanner.ofText t).scan.tokens = first.token :: (more.flatMap Member.tokens ++ rest) := by
    rw [scan_eq_of_tokenize ht, ← he, hd]
  exact Scanner.colon_notMem_of_scan more hs first.kind_eq hr

-- A filter says something single if its root is a path or a comparison.
theorem Arena.Shows.isSingle {a : Arena} {i : Nat} {e : Tree} {n : Node} (h : a.Shows i e)
    (hn : a.node? i = some n) (hk : n.kind = .path ∨ n.kind = .comparison) : e.IsSingle := by
  cases h <;> cases hn.symm.trans ‹_›
  case path | filtered                         => exact .path _ _
  case comparison | filteredComparison         => exact .comparison _ _ _ _
  case negation | conjunction | disjunction    => simp [Node.kind] at hk

theorem exists_parse_single
    (h : ((parse l t).toOption.bind id).map (fun f => (f.arena.node? f.root).map Node.kind) =
      some (some .comparison)) :
    ∃ f, parse l t = .ok (some f) ∧ f.tree.IsSingle := by
  have ⟨f, hf, hk⟩ := exists_of_map_ok h
  have ⟨n, hn, hk⟩ := Option.map_eq_some_iff.mp hk
  exact ⟨f, hf, (Arena.shows_treeAt f.root_lt).isSingle hn (.inr hk)⟩

-- A schema in front of a single comparison or path changes nothing but the schema of the path.
theorem parse_qualified (hu : IsSchemaUri u) (hw : w.LeadsIn t) (hl : w.BeginsWithLetter)
    (hp : parse l t = .ok (some f)) (hf : f.tree.IsSingle) (hd : l'.maxDepth = l.maxDepth)
    (hlength : byteLength (u ++ ':' :: t) ≤ l'.maxLength) :
    ∃ g, parse l' (u ++ ':' :: t) = .ok (some g) ∧ f.Qualifies u g := by
  have ⟨_, ts, hts, hpt⟩ := parse_eq_ok_iff.mp hp
  have hlex := isLexeme_of_tokenize hts
  have hn := hw.isNext hts
  have hc := colon_notMem_of_parseTokens hts hn hpt
  have ⟨us, hus, hlexemes⟩ := exists_tokenize_qualified hu (hw.takeWhile_ne_nil hl) hc hts
  let uri : Terminal [.schemaUri] := ⟨.ofText .schemaUri u, List.mem_cons_self, hu⟩
  let colon : Terminal [.colon] := ⟨.ofText .colon [':'], List.mem_cons_self, rfl⟩
  have ⟨g, hg, hfg⟩ := parseTokens_qualified hlex hn uri colon hpt hf
  have hsense : us.map Token.sense = (uri.token :: colon.token :: ts).map Token.sense :=
    map_sense_eq hlexemes
  exact ⟨g, parse_eq_ok_iff.mpr ⟨hlength, us, hus, parseTokens_of_sense hsense hd hg⟩, hfg⟩

theorem parse_qualified_present :
    ∃ f g, parse {} "a pr".toList = .ok (some f) ∧ parse {} "urn:x:a pr".toList = .ok (some g) ∧
      f.Qualifies "urn:x".toList g := by
  have hu : IsSchemaUri "urn:x".toList := ⟨by decide, by decide, by decide⟩
  have hw : Text.LeadsIn "a".toList "a pr".toList :=
    ⟨by decide, ⟨" pr".toList, rfl, .cons rfl⟩, by decide⟩
  have hl : Text.BeginsWithLetter "a".toList := ⟨'a', rfl, rfl⟩
  have ⟨f, hf, hs⟩ := exists_parse_single (l := {}) (t := "a pr".toList) (by decide +kernel)
  have hd : ({} : Limits).maxDepth = ({} : Limits).maxDepth := rfl
  have ⟨g, hg, hfg⟩ := parse_qualified hu hw hl hf hs hd (by decide)
  exact ⟨f, g, hf, hg, hfg⟩

-- Behind a schema a dollar sign ends the run that is read as a schema URI, and no name is left in it.
theorem exists_first_dollar (hu : IsSchemaUri u) (r : Text) :
    ∃ c v, u ++ ':' :: '$' :: r = c :: v ∧ isLetter c = true ∧ first c v = .error (u ++ [':']) := by
  have hs : startsUri (u ++ ':' :: '$' :: r) = true :=
    (startsUri_append (Nat.le_of_lt hu.longer)).trans hu.scheme
  have hrun : (u ++ ':' :: '$' :: r).takeWhile isUriChar = u ++ [':'] := by
    rw [List.takeWhile_append_of_pos hu.chars]
    rfl
  have he : schemaUri (u ++ ':' :: '$' :: r) = .error (u ++ [':']) := by
    rw [schemaUri, hrun, splitLastColon?_append List.not_mem_nil]
    exact if_neg fun hn => hn.right rfl
  obtain ⟨c, _, _, v, h, hl, _⟩ := of_startsUri hs
  rw [h] at hs he
  have hq : c ≠ '"' := by rintro rfl; cases hl
  have hd := beginsNumber_eq_false (.inl hl)
  refine ⟨c, _, h, hl, ?_⟩
  simp only [first, ofMark?_eq_none (.inl (isWordChar_of_isLetter hl)), hq, hd, hl, hs, he, if_false,
    if_true, Bool.false_eq_true, Bool.true_or]

-- So such a name is refused behind a schema.
theorem parse_dollar {r : Text} (hu : IsSchemaUri u)
    (hl : byteLength (u ++ ':' :: '$' :: r) ≤ l.maxLength) :
    parse l (u ++ ':' :: '$' :: r) = .error (.unrecognized (u ++ [':']) {}) := by
  have ⟨c, v, h, hc, hf⟩ := exists_first_dollar hu r
  have hb : isBlank c = false := isBlank_of_isUriChar (by simp [isUriChar, isWordChar_of_isLetter hc])
  have hd : dropBlank (c :: v) = c :: v := dropBlank_of_stops (.cons hb)
  have hblank : leadingBlank (c :: v) = [] := takeWhile_of_stops (.cons hb)
  have hn : (Scanner.ofText (c :: v)).next? =
      some (.error (.unrecognized (u ++ [':']) {}), (Scanner.ofText (c :: v)).finished) := by
    simp only [Scanner.next?, Scanner.ofText, hd, hblank, hf, Position.after_nil]
  rw [h] at hl ⊢
  simp only [parse, parseReporting, if_neg (Nat.not_lt.mpr hl), Scanner.scan_of_error hn]

theorem parse_qualified_reference :
    IsSchemaUri "urn:a".toList ∧ Text.LeadsIn "$ref".toList "$ref pr".toList ∧
      (∃ f, parse {} "$ref pr".toList = .ok (some f) ∧ f.tree.IsSingle) ∧
      parse {} "urn:a:$ref pr".toList = .error (.unrecognized "urn:a:".toList {}) := by
  have hu : IsSchemaUri "urn:a".toList := ⟨by decide, by decide, by decide⟩
  have hw : Text.LeadsIn "$ref".toList "$ref pr".toList :=
    ⟨by decide, ⟨" pr".toList, rfl, .cons rfl⟩, by decide⟩
  exact ⟨hu, hw, exists_parse_single (by decide +kernel), parse_dollar hu (by decide)⟩

end AttributeFilter
