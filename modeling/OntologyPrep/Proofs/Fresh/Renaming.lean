import OntologyPrep.Clause.Form
import OntologyPrep.Proofs.Fresh.Drawn
import OntologyPrep.Proofs.State
import OntologyPrep.Proofs.Term.Bound

/-!
# What renaming does

`Term.Renames ρ t t'` says, without a supply, that `t'` is `t` with its variables renamed: a free
variable `a` has become `ρ a`, and a quantified formula binds as many other names, which stand for its
own in its body.  `Renaming.Drew` says what a part of a run has drawn: names for bound variables, and
names for free ones that had none.

`Term.RenamedUnder` puts the two together, with a lemma for each kind of term; `Term.rename_spec` says
that it holds of every run of `Term.rename`.
-/

namespace OntologyPrep

/-! ## lists in parallel -/

theorem exists_mem_zip_left {α β : Type} {xs : List α} {ys : List β} (h : ys.length = xs.length)
    {x : α} (hx : x ∈ xs) : ∃ y, (x, y) ∈ xs.zip ys := by
  induction xs generalizing ys with
  | nil => cases hx
  | cons x' xs ih =>
    cases ys with
    | nil => cases h
    | cons y ys =>
      rcases List.mem_cons.mp hx with rfl | hx
      · exact ⟨y, List.mem_cons_self⟩
      · obtain ⟨z, hz⟩ := ih (by simpa using h) hx
        exact ⟨z, List.mem_cons_of_mem _ hz⟩

theorem exists_mem_zip_right {α β : Type} {xs : List α} {ys : List β} (h : ys.length = xs.length)
    {y : β} (hy : y ∈ ys) : ∃ x, (x, y) ∈ xs.zip ys := by
  induction xs generalizing ys with
  | nil =>
    rw [List.eq_nil_of_length_eq_zero h] at hy
    cases hy
  | cons x xs ih =>
    cases ys with
    | nil => cases hy
    | cons y' ys =>
      rcases List.mem_cons.mp hy with rfl | hy
      · exact ⟨x, List.mem_cons_self⟩
      · obtain ⟨z, hz⟩ := ih (by simpa using h) hy
        exact ⟨z, List.mem_cons_of_mem _ hz⟩

/-- what holds of the second part of each pair holds throughout the second list -/
theorem forall_mem_of_zip {α β : Type} {Q : β → Prop} {xs : List α} {ys : List β}
    (h : ys.length = xs.length) (hzip : ∀ p ∈ xs.zip ys, Q p.2) : ∀ y ∈ ys, Q y := by
  intro y hy
  obtain ⟨x, hp⟩ := exists_mem_zip_right h hy
  exact hzip (x, y) hp

/-- what stands at one place in two parts at one place does so in the parts put together -/
theorem mem_zip_flatMap {α β γ δ : Type} {f : α → List γ} {g : β → List δ} {xs : List α} {ys : List β}
    (hlen : ∀ p ∈ xs.zip ys, (f p.1).length = (g p.2).length) {p : α × β} (hp : p ∈ xs.zip ys)
    {q : γ × δ} (hq : q ∈ (f p.1).zip (g p.2)) : q ∈ (xs.flatMap f).zip (ys.flatMap g) := by
  induction xs generalizing ys with
  | nil => cases hp
  | cons x xs ih =>
    cases ys with
    | nil => cases hp
    | cons y ys =>
      obtain ⟨hhead, htail⟩ := List.forall_mem_cons.mp hlen
      rw [List.flatMap_cons, List.flatMap_cons, List.zip_append hhead, List.mem_append]
      rcases List.mem_cons.mp hp with rfl | hp
      · exact .inl hq
      · exact .inr (ih htail hp)

/-! ## renamed terms -/

/-- a renaming of names with new names for some of them; of two for one name the later one counts -/
def rebind (ρ : String → String) : List String → List String → String → String
  | n :: ns, m :: ms => rebind (fun a => if a = n then m else ρ a) ns ms
  | _, _ => ρ

theorem rebind_of_not_mem {ρ : String → String} {ns ms : List String} {a : String}
    (h : a ∉ ns) : rebind ρ ns ms a = ρ a := by
  induction ns generalizing ρ ms with
  | nil => rfl
  | cons n ns ih =>
    cases ms with
    | nil => rfl
    | cons m ms =>
      rw [List.mem_cons, not_or] at h
      rw [rebind, ih h.2, if_neg h.1]

/-- the new name for a name is one of those at its places -/
theorem rebind_mem_zip {ρ : String → String} {ns ms : List String} (hlen : ms.length = ns.length)
    {a : String} (h : a ∈ ns) : (rebind ρ ns ms a, a) ∈ ms.zip ns := by
  induction ns generalizing ρ ms with
  | nil => cases h
  | cons n ns ih =>
    cases ms with
    | nil => cases hlen
    | cons m ms =>
      rw [rebind, List.zip_cons_cons]
      by_cases hns : a ∈ ns
      · exact List.mem_cons_of_mem _ (ih (by simpa using hlen) hns)
      · have he : a = n := (List.mem_cons.mp h).resolve_right hns
        rw [rebind_of_not_mem hns, if_pos he, he]
        exact List.mem_cons_self

theorem rebind_mem {ρ : String → String} {ns ms : List String} (hlen : ms.length = ns.length)
    {a : String} (h : a ∈ ns) : rebind ρ ns ms a ∈ ms := (List.of_mem_zip (rebind_mem_zip hlen h)).1

/-- different names stand for different ones -/
theorem rebind_inj {ρ : String → String} {ns ms : List String} (hlen : ms.length = ns.length)
    (hnodup : ms.Nodup) {a b : String} (ha : a ∈ ns) (hb : b ∈ ns)
    (h : rebind ρ ns ms a = rebind ρ ns ms b) : a = b := by
  induction ns generalizing ρ ms with
  | nil => cases ha
  | cons n ns ih =>
    cases ms with
    | nil => cases hlen
    | cons m ms =>
      have hlen' : ms.length = ns.length := by simpa using hlen
      rw [List.nodup_cons] at hnodup
      rw [rebind] at h
      -- the last place of a name decides; the first name only counts where it does not come again
      have hfirst : ∀ {x}, x ∈ n :: ns → x ∉ ns → x = n ∧
          rebind (fun a => if a = n then m else ρ a) ns ms x = m := by
        intro x hx hns
        have he : x = n := (List.mem_cons.mp hx).resolve_right hns
        exact ⟨he, by rw [rebind_of_not_mem hns, if_pos he]⟩
      by_cases hans : a ∈ ns <;> by_cases hbns : b ∈ ns
      · exact ih hlen' hnodup.2 hans hbns h
      · rw [(hfirst hb hbns).2] at h
        exact absurd (h ▸ rebind_mem hlen' hans) hnodup.1
      · rw [(hfirst ha hans).2] at h
        exact absurd (h ▸ rebind_mem hlen' hbns) hnodup.1
      · rw [(hfirst ha hans).1, (hfirst hb hbns).1]

namespace Term

/-- the second term is the first one with its variables renamed, the free ones as the function says -/
inductive Renames : (String → String) → Term → Term → Prop where
  | const {ρ : String → String} {a : String} : Name.isVariable a = false →
    Renames ρ (.atom a) (.atom a)
  | var {ρ : String → String} {a : String} : Name.isVariable a = true →
    Name.isVariable (ρ a) = true → Renames ρ (.atom a) (.atom (ρ a))
  | binder {ρ : String → String} {b : Binder} {news : List String} {body : Term} :
    news.length = b.names.length → (∀ n ∈ news, Name.isVariable n = true) →
    Renames (rebind ρ b.names news) b.body body →
    Renames ρ b.toTerm (.quantified b.quantifier.name news body)
  | list {ρ : String → String} {xs ys : List Term} : (Term.list xs).binder? = none →
    ys.length = xs.length → (∀ p ∈ xs.zip ys, Renames ρ p.1 p.2) →
    Renames ρ (.list xs) (.list ys)

theorem Renames.of_eq {ρ : String → String} {a new : String} (ha : Name.isVariable a = true)
    (hnew : Name.isVariable new = true) (h : ρ a = new) : Renames ρ (.atom a) (.atom new) := by
  subst h
  exact .var ha hnew

/-- the atoms that a term may be renamed to a constant from are that constant -/
theorem Renames.eq_of_atom {ρ : String → String} {t : Term} {a : String}
    (h : Renames ρ t (.atom a)) (ha : Name.isVariable a = false) : t = .atom a := by
  generalize he : Term.atom a = u at h
  cases h with
  | const _ => rfl
  | var _ hv =>
    rw [← Term.atom.inj he, ha] at hv
    cases hv
  | binder _ _ _ => cases he
  | list _ _ _ => cases he

/-- renaming makes no quantified formula of another list -/
theorem Renames.binder?_eq_none {ρ : String → String} {xs ys : List Term}
    (hb : (Term.list xs).binder? = none) (hlen : ys.length = xs.length)
    (h : ∀ p ∈ xs.zip ys, Renames ρ p.1 p.2) : (Term.list ys).binder? = none := by
  rw [Option.eq_none_iff_forall_ne_some]
  intro b hyb
  have hy := Term.list.inj (binder?_eq_some_iff.mp hyb)
  subst hy
  match xs, hlen with
  | [x, entries, body], _ =>
    have hx := (h (x, .atom b.quantifier.name) (by simp)).eq_of_atom
      (Quantifier.not_isVariable b.quantifier)
    subst hx
    have hsome : (Term.list [.atom b.quantifier.name, entries, body]).binder? = _ :=
      binder?_toTerm ⟨b.quantifier, entries, body⟩
    rw [hsome] at hb
    cases hb

/-- renaming keeps the number of bound names, for each kind of quantifier -/
theorem Renames.length_boundBy {ρ : String → String} {t t' : Term} (h : Renames ρ t t')
    (kind : Quantifier → Bool) : (t'.boundBy kind).length = (t.boundBy kind).length := by
  induction h with
  | const _ => rw [boundBy_atom]
  | var _ _ => rw [boundBy_atom, boundBy_atom]
  | @binder ρ b news body hlen _ _ ih =>
    rw [boundBy_quantified, boundBy_binder, List.length_append, List.length_append, ih]
    split
    · rw [hlen]
    · rfl
  | @list ρ xs ys hb hlen hzip ih =>
    rw [boundBy_list kind hb, boundBy_list kind (Renames.binder?_eq_none hb hlen hzip)]
    clear hb hzip
    induction xs generalizing ys with
    | nil => rw [List.eq_nil_of_length_eq_zero hlen]
    | cons x xs ihxs =>
      cases ys with
      | nil => cases hlen
      | cons y ys =>
        rw [List.flatMap_cons, List.flatMap_cons, List.length_append, List.length_append,
          ih (x, y) (by simp), ihxs (by simpa using hlen) fun p hp => ih p (by simp [hp])]

/-- every new bound name is a variable -/
theorem Renames.isVariable_of_mem_bound {ρ : String → String} {t t' : Term} (h : Renames ρ t t') :
    ∀ n ∈ t'.bound, Name.isVariable n = true := by
  induction h with
  | const _ => simp [bound, boundBy_atom]
  | var _ _ => simp [bound, boundBy_atom]
  | binder _ hvars _ ih =>
    rw [bound_quantified]
    exact fun n hn => (List.mem_append.mp hn).elim (hvars n) (ih n)
  | list hb hlen hzip ih =>
    rw [bound, boundBy_list _ (Renames.binder?_eq_none hb hlen hzip)]
    intro n hn
    obtain ⟨y, hy, hn⟩ := List.mem_flatMap.mp hn
    obtain ⟨x, hp⟩ := exists_mem_zip_right hlen hy
    exact ih _ hp n hn

end Term

/-! ## what a run draws -/

/-- links from new names to old ones added one after another -/
def RenameMap.insertAll (m : RenameMap) (pairs : List (String × String)) : RenameMap :=
  pairs.foldl (fun m p => m.insert p.1 p.2) m

theorem RenameMap.insertAll_append (m : RenameMap) (pairs pairs' : List (String × String)) :
    m.insertAll (pairs ++ pairs') = (m.insertAll pairs).insertAll pairs' := List.foldl_append

theorem Supply.isVariable_drawLike (name : String) (s : Supply) :
    Name.isVariable (drawLike name s).1 = true := by
  have hplain : Name.isPlainVariable ("?VAR" ++ s.next.index) = true := by
    simp [Name.isPlainVariable]
  have hrow : Name.isRowVariable ("@VAR" ++ s.next.index) = true := by
    simp [Name.isRowVariable]
  rw [drawLike, draw_eq]
  unfold variableStem
  split
  · exact Name.isVariable_of_isRowVariable hrow
  · rw [Name.isVariable, hplain]
    rfl

/-- a fresh variable is of the kind of the name that it stands for -/
theorem Supply.isRowVariable_drawLike (name : String) (s : Supply) :
    Name.isRowVariable (drawLike name s).1 = Name.isRowVariable name := by
  rw [drawLike, draw_eq]
  unfold variableStem
  split
  · next hrow =>
    rw [hrow]
    simp [Name.isRowVariable]
  · next hplain =>
    rw [hplain]
    simp [Name.isRowVariable]

namespace Renaming

/-- what a part of a run has drawn: names, each linked to the one that it replaced and of its kind, for
bound variables and for free variables that had none, each of these with its variable -/
structure Drew (r r' : Renaming) (pairs : List (String × String)) (bound : List String)
    (added : List (String × String)) : Prop where
  drawn : Supply.Drawn r.supply (pairs.map Prod.fst) r'.supply
  isVariable : ∀ n ∈ pairs.map Prod.fst, Name.isVariable n = true
  perm : (pairs.map Prod.fst).Perm (bound ++ added.map Prod.snd)
  links : r'.links = r.links.insertAll pairs
  linked : ∀ p ∈ added, (p.2, p.1) ∈ pairs
  free : ∀ a, r'.free[a]? = (r.free[a]?).or (added.lookup a)
  keys : (added.map Prod.fst).Nodup
  absent : ∀ a ∈ added.map Prod.fst, r.free[a]? = none
  kinds : ∀ p ∈ pairs, Name.isRowVariable p.1 = Name.isRowVariable p.2

theorem Drew.refl (r : Renaming) : Drew r r [] [] [] where
  drawn := .nil _
  isVariable n hn := by cases hn
  perm := .refl _
  links := rfl
  linked p hp := by cases hp
  free a := by simp
  keys := List.nodup_nil
  absent a ha := by cases ha
  kinds p hp := by cases hp

theorem lookup_append {added added' : List (String × String)} (a : String) :
    (added ++ added').lookup a = (added.lookup a).or (added'.lookup a) := by
  induction added with
  | nil => rfl
  | cons p added ih =>
    rw [List.cons_append, List.lookup_cons, List.lookup_cons]
    cases hp : a == p.1 with
    | true => rfl
    | false => exact ih

theorem lookup_isSome_iff {added : List (String × String)} {a : String} :
    (added.lookup a).isSome = true ↔ a ∈ added.map Prod.fst := by
  induction added with
  | nil => simp
  | cons p added ih =>
    rw [List.lookup_cons, List.map_cons, List.mem_cons]
    cases hp : a == p.1 with
    | true => simp [eq_of_beq hp]
    | false =>
      have hne : a ≠ p.1 := by simpa using hp
      simp [hne, ih]

/-- one part of a run after another -/
theorem Drew.trans {r m r' : Renaming} {pairs pairs' : List (String × String)}
    {bound bound' : List String} {added added' : List (String × String)}
    (h : Drew r m pairs bound added) (h' : Drew m r' pairs' bound' added') :
    Drew r r' (pairs ++ pairs') (bound ++ bound') (added ++ added') where
  drawn := by
    rw [List.map_append]
    exact h.drawn.trans h'.drawn
  isVariable n hn := by
    rw [List.map_append] at hn
    exact (List.mem_append.mp hn).elim (h.isVariable n) (h'.isVariable n)
  perm := by
    rw [List.map_append]
    refine (h.perm.append h'.perm).trans ?_
    rw [List.map_append, List.append_assoc, List.append_assoc]
    refine List.Perm.append_left bound ?_
    rw [← List.append_assoc, ← List.append_assoc]
    exact List.Perm.append_right _ List.perm_append_comm
  links := by rw [h'.links, h.links, RenameMap.insertAll_append]
  linked p hp := by
    rcases List.mem_append.mp hp with hp | hp
    · exact List.mem_append_left _ (h.linked p hp)
    · exact List.mem_append_right _ (h'.linked p hp)
  free a := by rw [h'.free, h.free, lookup_append, Option.or_assoc]
  keys := by
    rw [List.map_append, List.nodup_append]
    refine ⟨h.keys, h'.keys, fun a ha b hb hab => ?_⟩
    subst hab
    have hnone := h'.absent a hb
    rw [h.free, Option.or_eq_none_iff] at hnone
    have hsome := lookup_isSome_iff.mpr ha
    rw [hnone.2] at hsome
    cases hsome
  absent a ha := by
    rw [List.map_append, List.mem_append] at ha
    rcases ha with ha | ha
    · exact h.absent a ha
    · have hnone := h'.absent a ha
      rw [h.free, Option.or_eq_none_iff] at hnone
      exact hnone.1
  kinds p hp := (List.mem_append.mp hp).elim (h.kinds p) (h'.kinds p)

/-- the table of free variables has variables for values -/
def HasVariables (table : Std.TreeMap String String) : Prop :=
  ∀ a n : String, table[a]? = some n → Name.isVariable n = true

theorem mem_of_lookup {added : List (String × String)} {a n : String}
    (h : added.lookup a = some n) : (a, n) ∈ added := by
  induction added with
  | nil => cases h
  | cons p added ih =>
    rw [List.lookup_cons] at h
    split at h
    · next hp =>
      rw [eq_of_beq hp]
      cases h
      exact List.mem_cons_self
    · exact List.mem_cons_of_mem _ (ih h)

theorem mem_values_of_lookup {added : List (String × String)} {a n : String}
    (h : added.lookup a = some n) : n ∈ added.map Prod.snd :=
  List.mem_map_of_mem (mem_of_lookup h)

theorem lookup_inj {added : List (String × String)} (hnodup : (added.map Prod.snd).Nodup)
    {a b n : String} (ha : added.lookup a = some n) (hb : added.lookup b = some n) : a = b := by
  induction added with
  | nil => cases ha
  | cons p added ih =>
    rw [List.map_cons, List.nodup_cons] at hnodup
    rw [List.lookup_cons] at ha hb
    split at ha
    · next hap =>
      cases ha
      split at hb
      · next hbp => rw [eq_of_beq hap, eq_of_beq hbp]
      · exact absurd (mem_values_of_lookup hb) hnodup.1
    · split at hb
      · cases hb
        exact absurd (mem_values_of_lookup ha) hnodup.1
      · exact ih hnodup.2 ha hb

theorem Drew.hasVariables {r r' : Renaming} {pairs : List (String × String)} {bound : List String}
    {added : List (String × String)} (h : Drew r r' pairs bound added) (hr : HasVariables r.free) :
    HasVariables r'.free := by
  intro a n hn
  rw [h.free] at hn
  rcases Option.or_eq_some_iff.mp hn with hn | ⟨_, hn⟩
  · exact hr a n hn
  · exact h.isVariable n (h.perm.mem_iff.mpr (List.mem_append_right _ (mem_values_of_lookup hn)))

/-- what a variable has become: what the scope says, and outside of it what the table of free variables
says -/
def look (scope : Std.TreeMap String String) (free : String → Option String) (a : String) :
    String := (scope[a]?.or (free a)).getD a

theorem draw_eq (r : Renaming) (name : String) :
    r.draw name = ((Supply.drawLike name r.supply).1,
      { r with
        supply := (Supply.drawLike name r.supply).2
        links := r.links.insert (Supply.drawLike name r.supply).1 name }) := rfl

theorem bind_cons (scope : Std.TreeMap String String) (name : String) (names : List String)
    (r : Renaming) : bind scope (name :: names) r =
      ((r.draw name).1 :: (bind (scope.insert name (r.draw name).1) names (r.draw name).2).1,
        (bind (scope.insert name (r.draw name).1) names (r.draw name).2).2.1,
        (bind (scope.insert name (r.draw name).1) names (r.draw name).2).2.2) := rfl

theorem drew_draw (r : Renaming) (name : String) :
    Drew r (r.draw name).2 [((r.draw name).1, name)] [(r.draw name).1] [] where
  drawn := Supply.drawn_draw (Supply.variableStem_mem name) r.supply
  isVariable := List.forall_mem_singleton.mpr (Supply.isVariable_drawLike name r.supply)
  perm := .refl _
  links := rfl
  linked p hp := by cases hp
  free a := by simp [draw_eq]
  keys := List.nodup_nil
  absent a ha := by cases ha
  kinds := List.forall_mem_singleton.mpr (Supply.isRowVariable_drawLike name r.supply)

theorem getElem?_insert (table : Std.TreeMap String String) (a b new : String) :
    (table.insert a new)[b]? = if b = a then some new else table[b]? := by
  rw [Std.TreeMap.getElem?_insert]
  by_cases he : b = a
  · subst he
    simp
  · rw [if_neg he, if_neg fun hc => he (Std.LawfulEqCmp.compare_eq_iff_eq.mp hc).symm]

/-- a free variable that has no name yet gets a fresh one -/
theorem drew_ofFree {r : Renaming} {a : String} (h : r.free[a]? = none) :
    Drew r (r.ofFree a).2 [((r.ofFree a).1, a)] [] [(a, (r.ofFree a).1)] := by
  have hof : r.ofFree a = ((r.draw a).1,
      { (r.draw a).2 with free := (r.draw a).2.free.insert a (r.draw a).1 }) := by
    rw [ofFree, h]
  have hdrew := drew_draw r a
  rw [hof]
  exact {
    drawn := hdrew.drawn
    isVariable := hdrew.isVariable
    perm := .refl _
    links := hdrew.links
    linked := List.forall_mem_singleton.mpr List.mem_cons_self
    free := fun b => by
      rw [getElem?_insert, List.lookup_cons, List.lookup_nil]
      by_cases he : b = a
      · rw [he, if_pos rfl, beq_self_eq_true, h]
        rfl
      · rw [if_neg he, beq_eq_false_iff_ne.mpr he]
        exact (Option.or_none).symm
    keys := by simp
    absent := List.forall_mem_singleton.mpr h
    kinds := hdrew.kinds }

/-- what binding some names draws, and the scope it gives the body: one fresh name for each, which
stands for it there -/
structure Binds (scope : Std.TreeMap String String) (names : List String) (r : Renaming)
    (news : List String) (inner : Std.TreeMap String String) (r' : Renaming) : Prop where
  drew : ∃ pairs, Drew r r' pairs news [] ∧ pairs.map Prod.fst = news ∧ pairs.map Prod.snd = names
  length : news.length = names.length
  isVariable : ∀ n ∈ news, Name.isVariable n = true
  absent : ∀ a, inner[a]? = none ↔ a ∉ names ∧ scope[a]? = none
  found : ∀ a n : String, inner[a]? = some n → scope[a]? = some n ∨ n ∈ news
  look_eq : ∀ free, look inner free = rebind (look scope free) names news

theorem binds_nil (scope : Std.TreeMap String String) (r : Renaming) : Binds scope [] r [] scope r where
  drew := ⟨[], .refl r, rfl, rfl⟩
  length := rfl
  isVariable := List.forall_mem_nil _
  absent a := by simp
  found _ _ := .inl
  look_eq _ := rfl

/-- one name more, of which those after it may be a repetition -/
theorem Binds.cons {scope inner : Std.TreeMap String String} {name : String} {names news : List String}
    {r r' : Renaming}
    (h : Binds (scope.insert name (r.draw name).1) names (r.draw name).2 news inner r') :
    Binds scope (name :: names) r ((r.draw name).1 :: news) inner r' where
  drew := by
    obtain ⟨pairs, hdrew, hnews, holds⟩ := h.drew
    exact ⟨_, (drew_draw r name).trans hdrew, congrArg (_ :: ·) hnews, congrArg (name :: ·) holds⟩
  length := congrArg (· + 1) h.length
  isVariable := List.forall_mem_cons.mpr ⟨Supply.isVariable_drawLike name r.supply, h.isVariable⟩
  absent a := by
    rw [h.absent, getElem?_insert, List.mem_cons, not_or]
    by_cases he : a = name <;> simp [he]
  found a n hn := by
    rcases h.found a n hn with hscope | hn
    · rw [getElem?_insert] at hscope
      split at hscope
      · cases hscope
        exact .inr List.mem_cons_self
      · exact .inl hscope
    · exact .inr (List.mem_cons_of_mem _ hn)
  look_eq free := by
    have hlook : look (scope.insert name (r.draw name).1) free =
        fun a => if a = name then (r.draw name).1 else look scope free a := by
      funext a
      rw [look, getElem?_insert]
      split <;> rfl
    rw [h.look_eq, hlook, rebind]

theorem bind_spec (scope : Std.TreeMap String String) (names : List String) (r : Renaming) :
    Binds scope names r (bind scope names r).1 (bind scope names r).2.1 (bind scope names r).2.2 := by
  induction names generalizing scope r with
  | nil => exact binds_nil scope r
  | cons name names ih => exact (ih (scope.insert name (r.draw name).1) (r.draw name).2).cons

end Renaming

namespace Term

open Renaming

theorem rename_constant (scope : Std.TreeMap String String) {a : String}
    (ha : Name.isVariable a = false) (r : Renaming) : (atom a).rename scope r = (.atom a, r) := by
  rw [rename, ha]
  rfl

theorem rename_bound {scope : Std.TreeMap String String} {a new : String}
    (ha : Name.isVariable a = true) (hscope : scope[a]? = some new) (r : Renaming) :
    (atom a).rename scope r = (.atom new, r) := by
  rw [rename, ha, hscope]
  rfl

theorem rename_variable {scope : Std.TreeMap String String} {a : String}
    (ha : Name.isVariable a = true) (hscope : scope[a]? = none) (r : Renaming) :
    (atom a).rename scope r = (.atom (r.ofFree a).1, (r.ofFree a).2) := by
  rw [rename, ha, hscope]

theorem rename_binder (scope : Std.TreeMap String String) (b : Binder) (r : Renaming) :
    b.toTerm.rename scope r =
      (.quantified b.quantifier.name (Renaming.bind scope b.names r).1
          (b.body.rename (Renaming.bind scope b.names r).2.1
            (Renaming.bind scope b.names r).2.2).1,
        (b.body.rename (Renaming.bind scope b.names r).2.1
          (Renaming.bind scope b.names r).2.2).2) := by
  have h := binder?_toTerm b
  rw [Binder.toTerm] at h ⊢
  have hrun : (Term.list [.atom b.quantifier.name, b.entries, b.body]).rename scope = fun r =>
      (.quantified b.quantifier.name (Renaming.bind scope b.names r).1
          (b.body.rename (Renaming.bind scope b.names r).2.1
            (Renaming.bind scope b.names r).2.2).1,
        (b.body.rename (Renaming.bind scope b.names r).2.1
          (Renaming.bind scope b.names r).2.2).2) := by
    rw [rename]
    split
    · next b' hb' =>
      rw [h] at hb'
      cases hb'
      rfl
    · next hn =>
      rw [h] at hn
      cases hn
  exact congrFun hrun r

theorem rename_list (scope : Std.TreeMap String String) {xs : List Term}
    (h : (Term.list xs).binder? = none) (r : Renaming) :
    (Term.list xs).rename scope r =
      (.list (xs.mapM (rename scope) r).1, (xs.mapM (rename scope) r).2) := by
  have hrun : (Term.list xs).rename scope = fun r =>
      (.list (xs.mapM (rename scope) r).1, (xs.mapM (rename scope) r).2) := by
    rw [rename]
    split
    · next b hb =>
      rw [h] at hb
      cases hb
    · rfl
  exact congrFun hrun r

/-- what renaming a term under a scope draws and makes of it: the names that the result binds, each for the
bound name at its place, and one name for each free variable that the scope does not cover and that has
none yet, in the place of names of the term; the result is a renaming of the term, whatever free variables
come later -/
structure RenamedUnder (scope : Std.TreeMap String String) (t t' : Term) (r r' : Renaming)
    (pairs added : List (String × String)) : Prop where
  drew : Drew r r' pairs t'.bound added
  mem_atoms : ∀ p ∈ pairs, p.2 ∈ t.atoms
  places : ∀ p ∈ t'.bound.zip t.bound, p ∈ pairs
  keys : ∀ a, a ∈ added.map Prod.fst ↔ a ∈ t.freeVariables ∧ scope[a]? = none ∧ r.free[a]? = none
  renames : ∀ free : String → Option String, (∀ a n : String, r'.free[a]? = some n → free a = some n) →
    t.Renames (look scope free) t'

/-- the same of several terms one after another -/
structure AllRenamedUnder (scope : Std.TreeMap String String) (xs ys : List Term) (r r' : Renaming)
    (pairs added : List (String × String)) : Prop where
  drew : Drew r r' pairs (ys.flatMap bound) added
  mem_atoms : ∀ p ∈ pairs, ∃ x ∈ xs, p.2 ∈ x.atoms
  places : ∀ p ∈ (ys.flatMap bound).zip (xs.flatMap bound), p ∈ pairs
  keys : ∀ a, a ∈ added.map Prod.fst ↔
    (∃ x ∈ xs, a ∈ x.freeVariables) ∧ scope[a]? = none ∧ r.free[a]? = none
  length : ys.length = xs.length
  renames : ∀ free : String → Option String, (∀ a n : String, r'.free[a]? = some n → free a = some n) →
    ∀ p ∈ xs.zip ys, p.1.Renames (look scope free) p.2

section

variable {scope : Std.TreeMap String String} {t t' : Term} {xs ys : List Term} {r m r' : Renaming}
  {pairs added pairs' added' : List (String × String)} {a : String}

theorem RenamedUnder.length_bound (h : RenamedUnder scope t t' r r' pairs added) :
    t'.bound.length = t.bound.length :=
  (h.renames (fun a => r'.free[a]?) fun _ _ hn => hn).length_boundBy _

/-- an atom that no name is drawn for -/
theorem renamedUnder_atom {new : String}
    (hknown : Name.isVariable a = true → ¬ (scope[a]? = none ∧ r.free[a]? = none))
    (hrenames : ∀ free : String → Option String, (∀ a n : String, r.free[a]? = some n → free a = some n) →
      (atom a).Renames (look scope free) (.atom new)) :
    RenamedUnder scope (.atom a) (.atom new) r r [] [] where
  drew := by
    rw [bound_atom]
    exact .refl r
  mem_atoms p hp := by cases hp
  places p hp := by
    rw [bound_atom] at hp
    cases hp
  keys b := by
    refine iff_of_false List.not_mem_nil fun ⟨hb, hnone⟩ => ?_
    obtain ⟨hv, rfl⟩ := mem_freeVariables_atom.mp hb
    exact hknown hv hnone
  renames := hrenames

/-- a free variable that a name is drawn for -/
theorem renamedUnder_ofFree (hv : Name.isVariable a = true) (hscope : scope[a]? = none)
    (hfree : r.free[a]? = none) : RenamedUnder scope (.atom a) (.atom (r.ofFree a).1) r (r.ofFree a).2
      [((r.ofFree a).1, a)] [(a, (r.ofFree a).1)] where
  drew := by
    rw [bound_atom]
    exact drew_ofFree hfree
  mem_atoms := List.forall_mem_singleton.mpr (by rw [atoms_atom]; exact List.mem_singleton_self a)
  places p hp := by
    rw [bound_atom] at hp
    cases hp
  keys b := by
    rw [mem_freeVariables_atom, List.map_singleton, List.mem_singleton]
    constructor
    · rintro rfl
      exact ⟨⟨hv, rfl⟩, hscope, hfree⟩
    · exact fun h => h.1.2
  renames free hlater := by
    have hdrew := drew_ofFree hfree
    refine .of_eq hv (hdrew.isVariable _ List.mem_cons_self) ?_
    rw [look, hscope, hlater a (r.ofFree a).1 (by rw [hdrew.free, hfree, List.lookup_cons_self]; rfl)]
    rfl

/-- a quantified formula, whose bound names the scope for its body covers -/
theorem RenamedUnder.binder {b : Binder} {body : Term}
    (h : RenamedUnder (bind scope b.names r).2.1 b.body body (bind scope b.names r).2.2 r' pairs added) :
    ∃ pairs', RenamedUnder scope b.toTerm
      (.quantified b.quantifier.name (bind scope b.names r).1 body) r r' (pairs' ++ pairs) added := by
  have hbinds := bind_spec scope b.names r
  obtain ⟨pairs', hbind, hnews, holds⟩ := hbinds.drew
  refine ⟨pairs', ?_, fun p hp => ?_, fun p hp => ?_, fun a => ?_, fun free hlater => ?_⟩
  · rw [bound_quantified]
    exact hbind.trans h.drew
  · rcases List.mem_append.mp hp with hp | hp
    · exact mem_atoms_of_mem_names (holds ▸ List.mem_map_of_mem hp)
    · exact mem_atoms_of_mem_body (h.mem_atoms p hp)
  · rw [bound_quantified, bound_binder, List.zip_append hbinds.length, List.mem_append] at hp
    rcases hp with hp | hp
    · rw [← hnews, ← holds, ← List.unzip_fst, ← List.unzip_snd, List.zip_unzip] at hp
      exact List.mem_append_left _ hp
    · exact List.mem_append_right _ (h.places p hp)
  · have hsame : (bind scope b.names r).2.2.free[a]? = r.free[a]? := by
      rw [hbind.free, List.lookup_nil, Option.or_none]
    rw [h.keys, hbinds.absent, hsame, mem_freeVariables_binder]
    simp only [and_assoc]
  · refine .binder hbinds.length hbinds.isVariable ?_
    rw [← hbinds.look_eq]
    exact h.renames free hlater

theorem allRenamedUnder_nil (scope : Std.TreeMap String String) (r : Renaming) :
    AllRenamedUnder scope [] [] r r [] [] where
  drew := .refl r
  mem_atoms p hp := by cases hp
  places p hp := by cases hp
  keys a := by simp
  length := rfl
  renames free _ p hp := by cases hp

/-- one term and then others; what comes later only adds to the table of free variables -/
theorem AllRenamedUnder.cons (h : RenamedUnder scope t t' r m pairs added)
    (hrest : AllRenamedUnder scope xs ys m r' pairs' added') :
    AllRenamedUnder scope (t :: xs) (t' :: ys) r r' (pairs ++ pairs') (added ++ added') where
  drew := h.drew.trans hrest.drew
  mem_atoms p hp := by
    rcases List.mem_append.mp hp with hp | hp
    · exact ⟨t, List.mem_cons_self, h.mem_atoms p hp⟩
    · obtain ⟨x, hx, hmem⟩ := hrest.mem_atoms p hp
      exact ⟨x, List.mem_cons_of_mem _ hx, hmem⟩
  places p hp := by
    rw [List.flatMap_cons, List.flatMap_cons, List.zip_append h.length_bound, List.mem_append] at hp
    rcases hp with hp | hp
    · exact List.mem_append_left _ (h.places p hp)
    · exact List.mem_append_right _ (hrest.places p hp)
  keys a := by
    rw [List.map_append, List.mem_append, h.keys, hrest.keys, h.drew.free, Option.or_eq_none_iff,
      ← Option.not_isSome_iff_eq_none (o := added.lookup a), lookup_isSome_iff, h.keys]
    by_cases ht : a ∈ t.freeVariables
    · simp only [ht, true_and, List.mem_cons, exists_eq_or_imp, true_or]
      exact ⟨fun hkey => hkey.elim id fun h => ⟨h.2.1, h.2.2.1⟩, .inl⟩
    · simp [ht]
  length := congrArg (· + 1) hrest.length
  renames free hlater p hp := by
    rcases List.mem_cons.mp hp with rfl | hp
    · refine h.renames free fun a n hn => hlater a n ?_
      rw [hrest.drew.free, hn]
      rfl
    · exact hrest.renames free hlater p hp

theorem AllRenamedUnder.list (hb : (list xs).binder? = none)
    (h : AllRenamedUnder scope xs ys r r' pairs added) :
    RenamedUnder scope (.list xs) (.list ys) r r' pairs added := by
  have hnone := Renames.binder?_eq_none hb h.length (h.renames (fun a => r'.free[a]?) fun _ _ hn => hn)
  refine ⟨?_, fun p hp => ?_, fun p hp => ?_, fun a => ?_,
    fun free hlater => .list hb h.length (h.renames free hlater)⟩
  · rw [bound_list hnone]
    exact h.drew
  · rw [atoms_list]
    exact List.mem_flatMap.mpr (h.mem_atoms p hp)
  · rw [bound_list hnone, bound_list hb] at hp
    exact h.places p hp
  · rw [h.keys, mem_freeVariables_list hb]

theorem exists_allRenamedUnder {xs : List Term}
    (h : ∀ x ∈ xs, ∀ r : Renaming, HasVariables r.free →
      ∃ pairs added, RenamedUnder scope x (x.rename scope r).1 r (x.rename scope r).2 pairs added)
    (r : Renaming) (hr : HasVariables r.free) : ∃ pairs added, AllRenamedUnder scope xs
      (xs.mapM (rename scope) r).1 r (xs.mapM (rename scope) r).2 pairs added := by
  induction xs generalizing r with
  | nil => exact ⟨[], [], allRenamedUnder_nil scope r⟩
  | cons x xs ih =>
    obtain ⟨hx, hxs⟩ := List.forall_mem_cons.mp h
    obtain ⟨pairs, added, hfirst⟩ := hx r hr
    obtain ⟨pairs', added', hrest⟩ := ih hxs (x.rename scope r).2 (hfirst.drew.hasVariables hr)
    rw [State.mapM_cons_apply]
    exact ⟨_, _, .cons hfirst hrest⟩

end

/-- what a run of the renaming does -/
theorem rename_spec (t : Term) (scope : Std.TreeMap String String) (r : Renaming)
    (hscope : HasVariables scope) (hr : HasVariables r.free) :
    ∃ pairs added, RenamedUnder scope t (t.rename scope r).1 r (t.rename scope r).2 pairs added := by
  induction t using binderInduction generalizing scope r with
  | atom a =>
    by_cases hv : Name.isVariable a = true
    · cases hs : scope[a]? with
      | some new =>
        rw [rename_bound hv hs]
        refine ⟨[], [], renamedUnder_atom (fun _ hnone => ?_) fun free _ => ?_⟩
        · rw [hs] at hnone
          cases hnone.1
        · refine .of_eq hv (hscope a new hs) ?_
          rw [look, hs]
          rfl
      | none =>
        rw [rename_variable hv hs]
        cases hf : r.free[a]? with
        | some new =>
          have hof : r.ofFree a = (new, r) := by rw [ofFree, hf]
          rw [hof]
          refine ⟨[], [], renamedUnder_atom (fun _ hnone => ?_) fun free hlater => ?_⟩
          · rw [hf] at hnone
            cases hnone.2
          · refine .of_eq hv (hr a new hf) ?_
            rw [look, hs, hlater a new hf]
            rfl
        | none => exact ⟨_, _, renamedUnder_ofFree hv hs hf⟩
    · rw [rename_constant scope (Bool.eq_false_iff.mpr hv)]
      exact ⟨[], [], renamedUnder_atom (fun h => absurd h hv)
        fun free _ => .const (Bool.eq_false_iff.mpr hv)⟩
  | binder b ih =>
    have hbinds := bind_spec scope b.names r
    obtain ⟨_, hbind, _⟩ := hbinds.drew
    have hinner : HasVariables (bind scope b.names r).2.1 := fun a n hn =>
      (hbinds.found a n hn).elim (hscope a n) (hbinds.isVariable n)
    obtain ⟨pairs, added, hbody⟩ :=
      ih (bind scope b.names r).2.1 (bind scope b.names r).2.2 hinner (hbind.hasVariables hr)
    obtain ⟨pairs', h⟩ := hbody.binder
    rw [rename_binder]
    exact ⟨_, added, h⟩
  | list xs hb ih =>
    obtain ⟨pairs, added, h⟩ := exists_allRenamedUnder (fun x hx r => ih x hx scope r hscope) r hr
    rw [rename_list scope hb]
    exact ⟨pairs, added, h.list hb⟩

/-- the number of names that renaming all variables of a term takes -/
def renamingDraws (t : Term) : Nat := t.bound.length + t.freeVariables.length

/-- what renaming all variables of a term draws and makes of it: the names are drawn one after another,
one for each bound name and one for each free variable, which is listed with its own -/
structure RenamedApart (t t' : Term) (s s' : Supply) (names : List String)
    (added : List (String × String)) : Prop where
  drawn : s.Drawn names s'
  perm : names.Perm (t'.bound ++ added.map Prod.snd)
  length : names.length = t.renamingDraws
  isVariable : ∀ n ∈ names, Name.isVariable n = true
  keys : (added.map Prod.fst).Nodup
  mem_keys : ∀ a, a ∈ added.map Prod.fst ↔ a ∈ t.freeVariables
  kinds : ∀ p ∈ added, Name.isRowVariable p.2 = Name.isRowVariable p.1
  renames : t.Renames (fun a => (added.lookup a).getD a) t'

/-- a run of the renaming from the beginning renames all variables apart -/
theorem RenamedUnder.renamedApart {t t' : Term} {s : Supply} {links : RenameMap} {r' : Renaming}
    {pairs added : List (String × String)}
    (h : RenamedUnder ∅ t t' (Renaming.start s links) r' pairs added) :
    RenamedApart t t' s r'.supply (pairs.map Prod.fst) added := by
  have hdrew := h.drew
  have hkeys : ∀ a, a ∈ added.map Prod.fst ↔ a ∈ t.freeVariables := by
    intro a
    rw [h.keys]
    simp [Renaming.start]
  have hren := h.renames (fun a => added.lookup a) fun a n hn => by
    rw [hdrew.free] at hn
    simpa [Renaming.start] using hn
  have hlook : Renaming.look ∅ (fun a => added.lookup a) = fun a => (added.lookup a).getD a := by
    funext a
    simp [Renaming.look]
  rw [hlook] at hren
  have hadded : added.length = t.freeVariables.length := by
    rw [← List.length_map (f := Prod.fst)]
    exact ((List.perm_ext_iff_of_nodup hdrew.keys t.nodup_freeVariables).mpr hkeys).length_eq
  refine ⟨hdrew.drawn, hdrew.perm, ?_, hdrew.isVariable, hdrew.keys, hkeys,
    fun p hp => hdrew.kinds _ (hdrew.linked p hp), hren⟩
  rw [hdrew.perm.length_eq, List.length_append, List.length_map, hadded, renamingDraws]
  exact congrArg (· + _) h.length_bound

/-- a run of the renaming from the beginning -/
theorem rename_start_spec (t : Term) (links : RenameMap) (s : Supply) :
    ∃ pairs added, RenamedUnder ∅ t (t.rename ∅ (Renaming.start s links)).1 (Renaming.start s links)
      (t.rename ∅ (Renaming.start s links)).2 pairs added :=
  rename_spec t ∅ (Renaming.start s links) (fun a n h => by simp at h)
    (fun a n h => by simp [Renaming.start] at h)

/-- each drawn name is linked to the name of the term that it replaces, a bound one to the bound name at
its place, and is of its kind -/
theorem renameApart_links (t : Term) (links : RenameMap) (s : Supply) :
    ∃ pairs added, RenamedApart t (t.renameApart links s).1.1 s (t.renameApart links s).2
        (pairs.map Prod.fst) added ∧
      (t.renameApart links s).1.2 = links.insertAll pairs ∧
      (∀ p ∈ pairs, p.2 ∈ t.atoms ∧ Name.isRowVariable p.1 = Name.isRowVariable p.2) ∧
      (∀ p ∈ (t.renameApart links s).1.1.bound.zip t.bound, p ∈ pairs) ∧
      ∀ p ∈ added, (p.2, p.1) ∈ pairs := by
  obtain ⟨pairs, added, h⟩ := rename_start_spec t links s
  exact ⟨pairs, added, h.renamedApart, h.drew.links,
    fun p hp => ⟨h.mem_atoms p hp, h.drew.kinds p hp⟩, h.places, h.drew.linked⟩

theorem renameApart_spec (t : Term) (links : RenameMap) (s : Supply) :
    ∃ names added, RenamedApart t (t.renameApart links s).1.1 s (t.renameApart links s).2 names
      added := by
  obtain ⟨pairs, added, hspec, _⟩ := renameApart_links t links s
  exact ⟨pairs.map Prod.fst, added, hspec⟩

section

variable {t t' : Term} {s s' : Supply} {names : List String} {added : List (String × String)}

theorem RenamedApart.exists_lookup (h : RenamedApart t t' s s' names added) {a : String}
    (ha : a ∈ t.freeVariables) : ∃ n, (a, n) ∈ added ∧ added.lookup a = some n := by
  obtain ⟨n, hn⟩ := Option.isSome_iff_exists.mp
    (Renaming.lookup_isSome_iff.mpr ((h.mem_keys a).mpr ha))
  exact ⟨n, Renaming.mem_of_lookup hn, hn⟩

/-- the new name of a free variable is one of the drawn ones -/
theorem RenamedApart.mem_values (h : RenamedApart t t' s s' names added) {a : String}
    (ha : a ∈ t.freeVariables) : (added.lookup a).getD a ∈ added.map Prod.snd := by
  obtain ⟨n, hmem, hn⟩ := h.exists_lookup ha
  rw [hn]
  exact List.mem_map_of_mem hmem

/-- the new name of a free variable is of its kind -/
theorem RenamedApart.isRowVariable (h : RenamedApart t t' s s' names added) {a : String}
    (ha : a ∈ t.freeVariables) :
    Name.isRowVariable ((added.lookup a).getD a) = Name.isRowVariable a := by
  obtain ⟨n, hmem, hn⟩ := h.exists_lookup ha
  rw [hn]
  exact h.kinds _ hmem

theorem RenamedApart.nodup (h : RenamedApart t t' s s' names added)
    (hdraws : t.renamingDraws < 2 ^ 32) : (t'.bound ++ added.map Prod.snd).Nodup :=
  h.perm.nodup_iff.mp (h.drawn.nodup (h.length ▸ hdraws))

/-- different free variables have different new names -/
theorem RenamedApart.inj (h : RenamedApart t t' s s' names added)
    (hdraws : t.renamingDraws < 2 ^ 32) {a b : String} (ha : a ∈ t.freeVariables)
    (hb : b ∈ t.freeVariables) (he : (added.lookup a).getD a = (added.lookup b).getD b) : a = b := by
  obtain ⟨m, _, hm⟩ := h.exists_lookup ha
  obtain ⟨n, _, hn⟩ := h.exists_lookup hb
  rw [hm, hn, Option.getD_some, Option.getD_some] at he
  exact Renaming.lookup_inj (List.nodup_append.mp (h.nodup hdraws)).2.1 hm (he ▸ hn)

end

end Term

end OntologyPrep
