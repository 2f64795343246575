import ManySorted.Proofs.Coercion.Across

/-!
# Comparing tables that a module includes

A module that composes two others under different names hosts copies of both, like the table that is
made to compare them.  Its own declarations live in the root, and make no difference to the copies
(`checkModule_hosts`).  So a query about a copy is answered as the comparison of the two tables is
(`Session.coerceAcross_eq_coerce`).
-/

namespace ManySorted

namespace Draft

variable {tables : List Table} {library : Library} {m : Module}
  {reference leftRef rightRef : ModuleRef} {left right foreign : Table} {d d' : Draft}
  {name l r : Name}

section

variable (hheld : ∀ entry ∈ library.tables, entry.2 ∈ tables)
  (hnullary : ∀ t ∈ tables, t.isValid = true → ∀ x, t.IsConstant x → (t.symbolAt x).arity = 0)
include hheld hnullary

/-- A reference under a vacant name annexes the table that it names. -/
theorem Assembled.annexed (h : d.Assembled tables) (hvacant : d.table.Vacant name)
    (hfind : library.find? reference.module = some foreign)
    (hname : reference.rename = some name)
    (hrun : importReference library m reference d = .ok () d')
    (hclean : d'.table.hasErrors = false) :
    foreign ∈ tables ∧ foreign.isValid = true ∧
      ∃ clock, Annexed tables foreign name { d with clock } d' := by
  have hclean' := ((proceeds_importReference library m reference).ok hrun).table.hasErrors_eq_false
    hclean
  have hmem := hheld _ (Library.mem_of_find? hfind)
  obtain ⟨hrefusal, clock, hembed⟩ := embed_of_importReference hfind hrun hclean
  have hvalid := Table.isValid_of_importRefusal? hrefusal
  rw [hname] at hembed
  have herrors : Table.hasErrors { d with clock }.table = false := hclean'
  exact ⟨hmem, hvalid, clock, (h.of_clock clock).ends_embed hmem hvalid herrors hvacant
    (hnullary foreign hmem hvalid) _ () d' rfl hembed⟩

/-- Two references under different names put two tables side by side. -/
theorem Assembled.hosts (h : d.Assembled tables) (hvacant : ∀ name, d.table.Vacant name)
    (hleft : library.find? leftRef.module = some left) (hl : leftRef.rename = some l)
    (hright : library.find? rightRef.module = some right) (hr : rightRef.rename = some r)
    (hne : l ≠ r) (hrun : [leftRef, rightRef].forM (importReference library m) d = .ok () d')
    (hclean : d'.table.hasErrors = false) :
    ∃ source target f g, left.Hosted d'.table l source f ∧ right.Hosted d'.table r target g := by
  obtain ⟨_, first, hfirst, hrun⟩ := bind_eq_ok.1 hrun
  obtain ⟨_, second, hsecond, hrun⟩ := bind_eq_ok.1 hrun
  cases hrun
  have hclean' := ((proceeds_importReference library m rightRef).ok
    hsecond).table.hasErrors_eq_false hclean
  obtain ⟨hmem, hvalid, clock, hannexed⟩ :=
    h.annexed hheld hnullary (hvacant l) hleft hl hfirst hclean'
  have hregular := (h.of_clock clock).formed.toRegular
  obtain ⟨source, f, hhosted, -⟩ := hannexed.hosted hregular (hvacant l)
  have hvacant' := hannexed.vacant hregular hmem hvalid (hvacant l) hne
    (hnullary left hmem hvalid) (hvacant r)
  obtain ⟨hmem', hvalid', clock', hannexed'⟩ :=
    hannexed.toAssembled.annexed hheld hnullary hvacant' hright hr hsecond hclean
  have hregular' := (hannexed.toAssembled.of_clock clock').formed.toRegular
  obtain ⟨target, g, hhosted', -⟩ := hannexed'.hosted hregular' hvacant'
  exact ⟨source, target, f, g,
    hannexed'.keeps hregular' hmem' hvalid' hvacant' hne.symm hhosted, hhosted'⟩

end

end Draft

section

variable {names names' : Interner} {tables : List Table} {left right : Table} {id : TableId}
  {library : Library} {config : CheckConfig} {m : Module} {out : CheckOutput}
  {leftRef rightRef : ModuleRef} {l r : Name} {d : SymbolId} {shape : DataShape} {info : DataInfo}

/-- A valid module that composes two tables under different names hosts copies of both, and its own
declarations live elsewhere. -/
theorem checkModule_hosts (session : Session names tables)
    (held : ∀ entry ∈ library.tables, entry.2 ∈ tables)
    (hleft : library.find? leftRef.module = some left) (hl : leftRef.rename = some l)
    (hright : library.find? rightRef.module = some right) (hr : rightRef.rename = some r)
    (hne : l ≠ r) (hreferences : m.references = [leftRef, rightRef])
    (checked : checkModule names id library config m = (names', .ok out))
    (hvalid : out.table.isValid = true) :
    ∃ source target f g,
      left.Hosted out.table l source f ∧ right.Hosted out.table r target g := by
  obtain ⟨d, hrun, -, hclean, htable⟩ := checkModule_valid checked hvalid
  have hassembled : (Draft.initial names id config m).Assembled tables :=
    Draft.assembled_initial session.archive.1 session.archive.2
  obtain ⟨imported, ⟨himports, hclean'⟩, himported, hext, hsound, -⟩ :=
    Draft.sound_checkPasses held hassembled hrun hclean
  rw [hreferences] at himports
  obtain ⟨source, target, f, g, hhosted, hhosted'⟩ :=
    hassembled.hosts held session.nullary
      (fun _ => Table.vacant_create session.archive.1 _ _ _ _) hleft hl hright hr hne himports
      hclean'
  have htree : out.table.Tree := by
    rw [htable]
    exact hsound.regular.tree.of_eq rfl
  have hext' : imported.table.Extends out.table := by
    rw [htable]
    exact hext.table.trans (.of_eq rfl rfl rfl)
  -- what the module declares itself lives in the root
  have hnew : ∀ {x}, out.table.Holds x → ¬ imported.table.Holds x → ∀ name rest,
      out.table.path (out.table.symbolAt x).home ≠ name :: rest := by
    intro x hx hnew name rest
    rw [(hext'.new hx hnew).2.1, htree.path_root]
    exact (List.cons_ne_nil _ _).symm
  have hregular := himported.formed.toRegular
  exact ⟨source, target, f, g,
    hhosted.later hregular hext'.later htree fun hx hold => hnew hx hold l,
    hhosted'.later hregular hext'.later htree fun hx hold => hnew hx hold r⟩

/-- Comparing two tables gives the answer that a valid module gives which composes both under
different names, when it is asked about the copy of the sort from the first name to the second. -/
theorem Session.coerceAcross_eq_coerce (session : Session names tables)
    (held : ∀ entry ∈ library.tables, entry.2 ∈ tables)
    (hleft : library.find? leftRef.module = some left) (hl : leftRef.rename = some l)
    (hright : library.find? rightRef.module = some right) (hr : rightRef.rename = some r)
    (hne : l ≠ r) (hreferences : m.references = [leftRef, rightRef])
    (checked : checkModule names id library config m = (names', .ok out))
    (hvalid : out.table.isValid = true) (hvalid' : left.isValid = true)
    (hvalid'' : right.isValid = true) (hd : left.kindOf d = .data shape info) {path : String}
    (hpath : names'.path? path =
      some (left.path (left.symbolAt d).home ++ [(left.symbolAt d).name])) :
    ∃ source target x sort, (out.table.namespaceAt .root).child? l = some source ∧
      (out.table.namespaceAt .root).child? r = some target ∧
      out.table.resolveSymbol
        (l :: left.path (left.symbolAt d).home ++ [(left.symbolAt d).name]) none Table.anySymbol =
          .found x ∧ out.table.sortOf? x = some sort ∧
      ∃ answer cache names'' answer', out.table.coerce sort source target {} = .ok answer cache ∧
        coerceAcross names' left right path = (names'', .ok answer') ∧
        answer'.coercible = answer.coercible := by
  obtain ⟨source, target, f, g, hhosted, hhosted'⟩ :=
    checkModule_hosts session held hleft hl hright hr hne hreferences checked hvalid
  obtain ⟨hgrown, hproper⟩ := checkModule_grown session.archive.1 checked
  have session' := session.grown hgrown hproper
  have hmem := held _ (Library.mem_of_find? hleft)
  have hmem' := held _ (Library.mem_of_find? hright)
  have hintact := session.intact_of_check held checked
  -- both copies are in good order
  have hresident : left.Resident names' out.table l source f :=
    { hhosted with
      formed := (session'.intact left hmem).formed
      closed := fun hx => (session'.intact left hmem).closed hx
      regular := hintact.formed.toRegular }
  have hresident' : right.Resident names' out.table r target g :=
    { hhosted' with
      formed := (session'.intact right hmem').formed
      closed := fun hx => (session'.intact right hmem').closed hx
      regular := hintact.formed.toRegular }
  obtain ⟨answer, cache, hanswer, hiff⟩ := hresident.exists_coerce hresident' hne hintact.closed
    (session.normal right hmem' hvalid'') hd
  obtain ⟨names'', answer', hacross, hiff', -⟩ := session'.coerceAcross_iff hmem hvalid' hmem'
    hvalid'' (hresident.formed.toRegular.lookup_eq hd hpath) hd
  -- the copy is found by its full path
  have hkind := hresident.mirrored.companions hd
  have hcopy := hresident.copies (Table.holds_of_data hd)
  have hnamed := hresident.regular.families.isEmpty_eq_false hcopy.holds
    (by rw [Table.dataOf?, hkind])
  have hfound := hintact.formed.arena.resolveSymbol_fullPath hintact.formed.tree hcopy.holds hnamed
  rw [hresident.path (Table.holds_of_data hd) (Table.staysInRoot_of_data hd), hcopy.name] at hfound
  refine ⟨source, target, f d, f info.sort, hhosted.child, hhosted'.child, hfound,
    Table.sortOf?_of_data hkind, answer, cache, names'', answer', hanswer, hacross, ?_⟩
  rw [Bool.eq_iff_iff, hiff, hiff']

end

namespace Widening

/-- The tables of `G` and `H`. -/
def library : Library := ⟨[(⟨28⟩, table 0), (⟨29⟩, table 1)]⟩

/-- `P` includes `G` as `L` and `H` as `R`. -/
def includer : Module where
  kind := .domain
  name := ⟨33⟩
  file := ⟨0⟩
  compositions := [{ rename := some ⟨34⟩, module := ⟨28⟩, kind := .includes },
    { rename := some ⟨35⟩, module := ⟨29⟩, kind := .includes }]

def included : Interner × Except Fault CheckOutput :=
  checkModule session.1 ⟨3⟩ library {} includer

theorem isValid_included : included.2.toOption.any (fun out => out.table.isValid) = true := by
  decide +kernel

/-- Lists of `G` are compared with those of `H` like those of `L` with those of `R` in `P`. -/
theorem coerceAcross_eq_coerce_lists : ∃ out d source target x sort,
    included = (included.1, .ok out) ∧ (out.table.namespaceAt .root).child? ⟨34⟩ = some source ∧
      (out.table.namespaceAt .root).child? ⟨35⟩ = some target ∧
      out.table.resolveSymbol (⟨34⟩ :: (table 0).path ((table 0).symbolAt d).home ++
        [((table 0).symbolAt d).name]) none Table.anySymbol = .found x ∧
      out.table.sortOf? x = some sort ∧
      ∃ answer cache names answer', out.table.coerce sort source target {} = .ok answer cache ∧
        coerceAcross included.1 (table 0) (table 1) "A" = (names, .ok answer') ∧
        answer'.coercible = answer.coercible := by
  obtain ⟨out, checked, hvalid⟩ := exists_of_any_toOption isValid_included
  have hdeclares := coercible_session.2.1
  obtain ⟨hvalid', d, shape, info, hd, hpath⟩ := exists_of_declares (hdeclares 0 (by decide))
  obtain ⟨hvalid'', -⟩ := exists_of_declares (hdeclares 1 (by decide))
  have session := session_checkAll ["G", "H", "K", "A", "NIL", "P", "L", "R"] modules
  have held : ∀ entry ∈ library.tables, entry.2 ∈ Widening.session.2 := by
    intro entry hentry
    rcases List.mem_pair.1 hentry with rfl | rfl
    · exact table_mem (by decide)
    · exact table_mem (by decide)
  obtain ⟨hgrown, hproper⟩ := checkModule_grown session.archive.1 checked
  obtain ⟨source, target, x, sort, hrest⟩ := session.coerceAcross_eq_coerce held rfl rfl rfl rfl
    (by decide) rfl checked hvalid hvalid' hvalid'' hd (hgrown.path? hproper hpath)
  exact ⟨out, d, source, target, x, sort, checked, hrest⟩

end Widening

end ManySorted
