import Mathlib.Data.List.Nodup
import OntologyPrep.Proofs.Normal.Apart
import OntologyPrep.Proofs.Term.Referent

/-!
# Renaming keeps what variables refer to

* `Term.Renames.variableOccurrences_eq`   the variables of a renamed term are spelled by what those of the
                                          term refer to;
* `Term.spell_inj`                        names that are all different spell different referents
                                          differently;
* `Term.rename_binding`                   a run of the renaming: two occurrences get one name exactly if
                                          they refer to the same, and nothing else of the term changes.

The names of the term may shadow each other, come twice in one list, be free in one place and bound in
another, and look like drawn ones.
-/

namespace OntologyPrep

/-! ## referents spelled -/

namespace Referent

/-- free names as the function says, entries by the names at their places -/
def spell (ρ : String → String) (bound : List String) : Referent → String
  | .free a => ρ a
  | .entry k => bound[k]?.getD ""

/-- entries are spelled by the names at their places -/
theorem map_spell_entries (ρ : String → String) (bound : List String) :
    (entries 0 bound.length).map (spell ρ bound) = bound := by
  refine List.ext_getElem (by simp [entries]) fun i hi hi' => ?_
  simp [entries, spell, List.getElem?_eq_getElem hi']

section

variable {spell : Referent → String} {next : Nat} {xs ys : List String}

theorem map_entries_append (h : (entries next (xs ++ ys).length).map spell = xs ++ ys) :
    (entries next xs.length).map spell = xs ∧
      (entries (next + xs.length) ys.length).map spell = ys := by
  rw [List.length_append, entries_add, List.map_append] at h
  exact List.append_inj h (by simp [entries])

/-- entering a scope is spelled as new names for the entered ones are bound -/
theorem rebind_eq_spell_enter {ρ : String → String} {scope : String → Referent}
    (hρ : ∀ a, ρ a = spell (scope a)) {names news : List String} (hlen : news.length = names.length)
    (hnews : (entries next news.length).map spell = news) (a : String) :
    rebind ρ names news a = spell (enter scope names next a) := by
  induction names generalizing ρ scope next news with
  | nil => exact hρ a
  | cons n ns ih =>
    cases news with
    | nil => cases hlen
    | cons m ms =>
      rw [List.length_cons, entries, List.range'_succ, List.map_cons, List.map_cons,
        List.cons.injEq, ← entries] at hnews
      rw [rebind, enter]
      refine ih (fun b => ?_) (by simpa using hlen) hnews.2
      split
      · exact hnews.1.symm
      · exact hρ b

end

end Referent

namespace Term

theorem variableOccurrences_quantified {q : Quantifier} {names : List String}
    (hnames : ∀ n ∈ names, Name.isVariable n = true) (body : Term) :
    (quantified q.name names body).variableOccurrences = names ++ body.variableOccurrences := by
  have hentries : (list (names.map atom)).variableOccurrences = names := by
    rw [variableOccurrences, atoms_list, List.flatMap_map]
    simpa using hnames
  rw [quantified, app, variableOccurrences_list, List.flatMap_cons, List.flatMap_cons,
    List.flatMap_singleton, hentries, variableOccurrences_atom, if_neg (by simp [q.not_isVariable]),
    List.nil_append]

section

variable {ρ : String → String} {t t' : Term}

/-- the variables of a renamed term are spelled by what those of the term refer to, as long as free ones
are renamed as what the scope says of them is spelled -/
theorem Renames.variableOccurrences_eq (h : Renames ρ t t') {spell : Referent → String}
    {scope : String → Referent} (hρ : ∀ a, ρ a = spell (scope a)) {next : Nat}
    (hbound : (Referent.entries next t'.bound.length).map spell = t'.bound) :
    t'.variableOccurrences = (t.resolve scope next).1.map spell := by
  induction h generalizing scope next with
  | const ha => rw [variableOccurrences_atom, resolve_atom, ha]; rfl
  | @var ρ a ha hv =>
    rw [variableOccurrences_atom, resolve_atom, if_pos ha, if_pos hv, hρ]
    rfl
  | @binder ρ b news body hlen hvars _ ih =>
    rw [bound_quantified] at hbound
    obtain ⟨hnews, hbody⟩ := Referent.map_entries_append hbound
    rw [variableOccurrences_quantified hvars, resolve_binder, List.map_append, ← hlen, hnews]
    rw [ih (Referent.rebind_eq_spell_enter hρ hlen hnews) hbody]
  | @list ρ xs ys hb hlen hzip ih =>
    rw [bound_list (Renames.binder?_eq_none hb hlen hzip)] at hbound
    rw [variableOccurrences_list, resolve_list scope hb]
    have hcounts : ∀ p ∈ xs.zip ys, p.2.bound.length = p.1.bound.length :=
      fun p hp => (hzip p hp).length_boundBy _
    clear hb hzip
    induction xs generalizing ys next with
    | nil =>
      rw [List.eq_nil_of_length_eq_zero hlen]
      rfl
    | cons x xs ihxs =>
      cases ys with
      | nil => cases hlen
      | cons y ys =>
        obtain ⟨hx, hxs⟩ := List.forall_mem_cons.mp ih
        obtain ⟨hcount, hcounts⟩ := List.forall_mem_cons.mp hcounts
        rw [List.flatMap_cons] at hbound
        obtain ⟨hy, hys⟩ := Referent.map_entries_append hbound
        rw [State.mapM_cons_apply, List.flatten_cons, List.map_append, List.flatMap_cons, hx hρ hy,
          resolve_snd, ← hcount, ihxs (by simpa using hlen) hxs hys hcounts]

/-- names that are all different spell different referents of the term differently -/
theorem spell_inj (hinj : ∀ a ∈ t.freeVariables, ∀ b ∈ t.freeVariables, ρ a = ρ b → a = b)
    (hlen : t'.bound.length = t.bound.length) (hclear : Clear ρ t t') {r r' : Referent}
    (hr : r ∈ t.referents) (hr' : r' ∈ t.referents)
    (he : r.spell ρ t'.bound = r'.spell ρ t'.bound) : r = r' := by
  have hspell := Referent.map_spell_entries ρ t'.bound
  have hfree : ∀ a ∈ t.freeVariables, (Referent.free a).spell ρ t'.bound ∉ t'.bound := hclear.free
  have hentry : ∀ r ∈ Referent.entries 0 t.bound.length, r.spell ρ t'.bound ∈ t'.bound := by
    rw [← hlen]
    intro r hr
    have hmem := List.mem_map_of_mem (f := Referent.spell ρ t'.bound) hr
    rwa [hspell] at hmem
  have hnodup : ((Referent.entries 0 t.bound.length).map (Referent.spell ρ t'.bound)).Nodup := by
    rw [← hlen, hspell]
    exact hclear.nodup
  rcases mem_referents hr with ⟨a, ha, rfl⟩ | hr <;> rcases mem_referents hr' with ⟨b, hb, rfl⟩ | hr'
  · rw [hinj a ha b hb he]
  · exact absurd (he ▸ hentry r' hr') (hfree a ha)
  · exact absurd (he ▸ hentry r hr) (hfree b hb)
  · exact List.inj_on_of_nodup_map hnodup hr hr' he

theorem Renames.exists_items {xs : List Term} (hb : (Term.list xs).binder? = none)
    (h : Renames ρ (Term.list xs) t') :
    ∃ ys, t' = .list ys ∧ ys.length = xs.length ∧ ∀ p ∈ xs.zip ys, Renames ρ p.1 p.2 := by
  generalize he : Term.list xs = t at h
  cases h with
  | const _ => cases he
  | var _ _ => cases he
  | @binder _ b _ _ _ _ _ =>
    rw [he, binder?_toTerm] at hb
    cases hb
  | list _ hlen hzip =>
    obtain rfl := Term.list.inj he
    exact ⟨_, rfl, hlen, hzip⟩

theorem mapVariables_quantified {q : Quantifier} {names : List String}
    (hnames : ∀ n ∈ names, Name.isVariable n = true) (body : Term) (f : String → String) :
    (quantified q.name names body).mapVariables f =
      quantified q.name (names.map f) (body.mapVariables f) := by
  have hentries : (names.map atom).map (fun x => x.mapVariables f) = (names.map f).map atom := by
    rw [List.map_map, List.map_map]
    refine List.map_congr_left fun n hn => ?_
    show (atom n).mapVariables f = .atom (f n)
    rw [mapVariables, mapAtoms_atom, if_pos (hnames n hn)]
  have hpair : (apply (.quant q) [.list (names.map atom), body]).mapVariables f =
      apply (.quant q) ([.list (names.map atom), body].map fun x => x.mapVariables f) :=
    mapVariables_apply _ _ f
  rw [List.map_cons, List.map_singleton, mapVariables_list, hentries] at hpair
  exact hpair

/-- what is common to the names and those that they become is all that a renamed term keeps of them -/
theorem Renames.mapVariables_eq (ht : t.BindsVariables) (h : Renames ρ t t') {f : String → String}
    (hfree : ∀ a ∈ t.freeVariables, f a = f (ρ a))
    (hbound : ∀ p ∈ t.bound.zip t'.bound, f p.1 = f p.2) : t.mapVariables f = t'.mapVariables f := by
  induction ht generalizing ρ t' with
  | atom a =>
    cases h with
    | const _ => rfl
    | var ha hv =>
      rw [mapVariables, mapVariables, mapAtoms_atom, mapAtoms_atom, if_pos ha, if_pos hv,
        hfree a (mem_freeVariables_atom.mpr ⟨ha, rfl⟩)]
  | @quantified q names body hnames _ ih =>
    obtain ⟨news, body', rfl, hlen, hnews, hbody⟩ := h.exists_body
    rw [bound_quantified, bound_quantified, List.zip_append hlen.symm] at hbound
    obtain ⟨hheads, htails⟩ := List.forall_mem_append.mp hbound
    rw [mapVariables_quantified hnames, mapVariables_quantified hnews]
    rw [map_eq_map_of_zip hlen fun p hp => (hheads p hp).symm, ih hbody ?_ htails]
    intro a ha
    by_cases hn : a ∈ names
    · have hpair : (a, rebind ρ names news a) ∈ names.zip news := by
        rw [← List.zip_swap]
        exact List.mem_map_of_mem (rebind_mem_zip hlen hn)
      exact hheads _ hpair
    · rw [rebind_of_not_mem hn]
      exact hfree a (mem_freeVariables_quantified.mpr ⟨ha, hn⟩)
  | @list xs hb _ ih =>
    obtain ⟨ys, rfl, hlen, hzip⟩ := h.exists_items hb
    rw [bound_list hb, bound_list (Renames.binder?_eq_none hb hlen hzip)] at hbound
    rw [mapVariables_list, mapVariables_list]
    refine congrArg Term.list (map_eq_map_of_zip hlen fun p hp => ?_).symm
    have hmem := (List.of_mem_zip hp).1
    refine (ih p.1 hmem (hzip p hp) (fun a ha => ?_) fun q hq => ?_).symm
    · exact hfree a ((mem_freeVariables_list hb).mpr ⟨p.1, hmem, ha⟩)
    · refine hbound q (mem_zip_flatMap (fun r hr => ?_) hp hq)
      exact ((hzip r hr).length_boundBy _).symm

end

/-- a term is a renaming of itself -/
theorem renames_id {t : Term} (ht : t.BindsVariables) : Renames id t t := by
  have hrebind : ∀ names : List String, rebind id names names = id := by
    intro names
    induction names with
    | nil => rfl
    | cons n ns ih =>
      have hsame : (fun a => if a = n then n else id a) = id := by
        funext a
        split
        · next h => exact h.symm
        · rfl
      rw [rebind, hsame, ih]
  induction ht with
  | atom a =>
    by_cases ha : Name.isVariable a = true
    · exact .of_eq ha ha rfl
    · exact .const (Bool.eq_false_iff.mpr ha)
  | @quantified q names body hnames _ ih =>
    have hparts : Renames id (Binder.mk q (.list (names.map atom)) body).toTerm
        (quantified q.name names body) := by
      refine .binder ?_ hnames ?_
      · rw [names_quantified]
      · rw [names_quantified, hrebind]
        exact ih
    exact hparts
  | @list xs hb _ ih =>
    refine .list hb rfl fun p hp => ?_
    obtain ⟨i, hi, hp⟩ := List.mem_iff_getElem.mp hp
    rw [List.getElem_zip] at hp
    rw [← hp]
    exact ih _ (List.getElem_mem _)

/-- every occurrence of a variable is spelled like what it refers to -/
theorem variableOccurrences_eq {t : Term} (ht : t.BindsVariables) :
    t.variableOccurrences = t.referents.map (Referent.spell id t.bound) :=
  (renames_id ht).variableOccurrences_eq (fun _ => rfl) (Referent.map_spell_entries id t.bound)

/-- values at two places are the same exactly if the things that they are values of are -/
theorem getElem?_map_eq_iff {α β : Type} {f : α → β} {xs : List α}
    (h : ∀ x ∈ xs, ∀ y ∈ xs, f x = f y → x = y) (i j : Nat) :
    (xs.map f)[i]? = (xs.map f)[j]? ↔ xs[i]? = xs[j]? := by
  rw [List.getElem?_map, List.getElem?_map]
  refine ⟨fun he => ?_, fun he => congrArg _ he⟩
  cases hi : xs[i]? with
  | none =>
    rw [hi, Option.map_none, eq_comm, Option.map_eq_none_iff] at he
    exact he.symm
  | some x =>
    rw [hi, Option.map_some, eq_comm, Option.map_eq_some_iff] at he
    obtain ⟨y, hj, hy⟩ := he
    rw [hj, h y (List.mem_of_getElem? hj) x (List.mem_of_getElem? hi) hy]

/-- a run of the renaming that draws fewer names than the counter has values, with no name in scope: it
draws one name for each entry of a list of bound names and for each free variable, all variables of the
result are drawn names, and up to the numbers of the drawn names it is the term; two occurrences of variables
have one name exactly if in the term they refer to the same entry or are free and spelled alike, no name is
bound twice or both free and bound, and the table at the end has the free variables for its keys -/
theorem rename_binding {t : Term} (ht : t.BindsVariables) (links : RenameMap) (s : Supply)
    (hdraws : t.renamingDraws < 2 ^ 32) :
    let run := t.rename ∅ (Renaming.start s links)
    (∃ names, s.Drawn names run.2.supply ∧ names.length = t.renamingDraws ∧
        ∀ a ∈ run.1.variableOccurrences, a ∈ names) ∧
      run.1.mapVariables Supply.variableStem = t.mapVariables Supply.variableStem ∧
      (∀ i j : Nat, run.1.variableOccurrences[i]? = run.1.variableOccurrences[j]? ↔
        t.referents[i]? = t.referents[j]?) ∧
      run.1.Apart ∧
      ∀ a, a ∈ run.2.free ↔ a ∈ t.freeVariables := by
  intro run
  obtain ⟨pairs, added, hrun⟩ := rename_start_spec t links s
  have hapart := hrun.renamedApart
  have hstem : ∀ p ∈ pairs, Supply.variableStem p.2 = Supply.variableStem p.1 := by
    intro p hp
    rw [Supply.variableStem, Supply.variableStem, hrun.drew.kinds p hp]
  refine ⟨⟨_, hapart.drawn, hapart.length, fun a ha => ?_⟩, ?_, ?_, hapart.isApart hdraws, fun a => ?_⟩
  · obtain ⟨hmem, hv⟩ := List.mem_filter.mp ha
    exact hapart.mem_names hmem hv
  · refine (Renames.mapVariables_eq ht hapart.renames (fun a ha => ?_) fun p hp => ?_).symm
    · rw [Supply.variableStem, Supply.variableStem, hapart.isRowVariable ha]
    · have hplace : (p.2, p.1) ∈ run.1.bound.zip t.bound := by
        rw [← List.zip_swap]
        exact List.mem_map_of_mem hp
      exact hstem _ (hrun.places _ hplace)
  · have hspelled : run.1.variableOccurrences = t.referents.map (Referent.spell _ run.1.bound) :=
      hapart.renames.variableOccurrences_eq (fun _ => rfl) (Referent.map_spell_entries _ _)
    rw [hspelled]
    refine getElem?_map_eq_iff fun r hr r' hr' he => ?_
    exact spell_inj (fun a ha b hb => hapart.inj hdraws ha hb) hrun.length_bound
      (hapart.clear hdraws) hr hr' he
  · rw [← hapart.mem_keys, ← Renaming.lookup_isSome_iff, ← Std.TreeMap.isSome_getElem?_iff_mem,
      hrun.drew.free]
    simp [Renaming.start]

theorem bindsVariables_app {head : String} (hq : Name.isQuantifier head = false) {args : List Term}
    (h : ∀ x ∈ args, x.BindsVariables) : (app head args).BindsVariables :=
  .list (binder?_app_eq_none args hq) (List.forall_mem_cons.mpr ⟨.atom head, h⟩)

/-- a name that comes twice in one list, is bound again inside and is free outside, and a free one that
looks drawn -/
def shadowing : Term :=
  .app "and" [
    .quantified Quantifier.all.name ["?X", "?X", "@ROW"] (.app "or" [.app "p" [.atom "?X", .atom "?VAR1"],
      .quantified Quantifier.any.name ["?X"] (.app "q" [.atom "?X", .atom "@ROW"])]),
    .app "r" [.atom "?X", .atom "?VAR1"]]

theorem bindsVariables_shadowing : shadowing.BindsVariables := by
  have hpair : ∀ (head a b : String), Name.isQuantifier head = false →
      (app head [.atom a, .atom b]).BindsVariables := fun head a b hq =>
    bindsVariables_app hq (List.forall_mem_cons.mpr ⟨.atom a, List.forall_mem_singleton.mpr (.atom b)⟩)
  refine bindsVariables_app (by decide) (List.forall_mem_cons.mpr ⟨?_, List.forall_mem_singleton.mpr
    (hpair "r" "?X" "?VAR1" (by decide))⟩)
  refine .quantified (by decide) (bindsVariables_app (by decide) (List.forall_mem_cons.mpr
    ⟨hpair "p" "?X" "?VAR1" (by decide), List.forall_mem_singleton.mpr ?_⟩))
  exact .quantified (by decide) (hpair "q" "?X" "@ROW" (by decide))

/-- the counter comes round during the run -/
theorem rename_binding_shadowing : shadowing.BindsVariables ∧ shadowing.renamingDraws < 2 ^ 32 ∧
    (∀ i j : Nat,
      (shadowing.rename ∅ (Renaming.start ⟨4294967293⟩ .empty)).1.variableOccurrences[i]? =
          (shadowing.rename ∅ (Renaming.start ⟨4294967293⟩ .empty)).1.variableOccurrences[j]? ↔
        shadowing.referents[i]? = shadowing.referents[j]?) ∧
    (shadowing.rename ∅ (Renaming.start ⟨4294967293⟩ .empty)).1.Apart := by
  have hdraws : shadowing.renamingDraws < 2 ^ 32 := by
    have h : shadowing.renamingDraws = 6 := by cbv
    rw [h]
    decide
  obtain ⟨-, -, hsame, hapart, -⟩ :=
    rename_binding bindsVariables_shadowing .empty ⟨4294967293⟩ hdraws
  exact ⟨bindsVariables_shadowing, hdraws, hsame, hapart⟩

example : shadowing.referents = [.entry 0, .entry 1, .entry 2, .entry 1, .free "?VAR1", .entry 3,
    .entry 3, .entry 2, .free "?X", .free "?VAR1"] := by cbv

end Term

end OntologyPrep
