import JsonAutomata.Command.Manual
import Mathlib.Data.List.Lex
import Mathlib.Data.List.Nodup

/-!
# Manual pages — one for each command, in pre-order

A place in a tree of commands is given by the numbers of the subcommands on the way to it, and the
lexicographic order of places is the pre-order: a command comes before what is below it, and
siblings come in their own order.  The pages are those of all places in this order (`visits`), each
under the names on the way.

`writeManual_visits` says so of the files that are written.  Where siblings differ and names have no
hyphens, the names can be read off a joined name again, and they lead to one place only, so no file
is written twice.
-/

namespace JsonAutomata

namespace Command

namespace CommandTree

/-! ## 1. Places -/

/-- The names on the way from the root of a tree to a place, both ends included. -/
def namesAt? : List Nat → CommandTree → Option (List String)
  | [], tree => some [tree.name]
  | i :: place, tree => (tree.subcommands[i]?.bind (namesAt? place)).map (tree.name :: ·)

/-- A command that is visited: where it is, and the names on the way. -/
structure Visit where
  /-- The numbers of the subcommands on the way from the root. -/
  place : List Nat
  /-- The names on the way, the first and the last command included. -/
  names : List String
  deriving DecidableEq, Repr

namespace Visit

def under (i : Nat) (v : Visit) : Visit := { v with place := i :: v.place }

def file (v : Visit) : String := "-".intercalate v.names ++ ".1"

end Visit

/-- The visits to commands, the first of which has the number `i`, and to all below them.  The names
`above` lead to the commands. -/
def visitsBelow (above : List String) (i : Nat) : List CommandTree → List Visit
  | [] => []
  | command name _ subcommands :: rest =>
    (⟨[], above ++ [name]⟩ :: visitsBelow (above ++ [name]) 0 subcommands).map (Visit.under i)
      ++ visitsBelow above (i + 1) rest

def visits : CommandTree → List Visit
  | command name _ subcommands => ⟨[], [name]⟩ :: visitsBelow [name] 0 subcommands

variable {above names : List String} {i : Nat} {name about : String} {v : Visit}
  {subcommands cs : List CommandTree} {tree : CommandTree}

/-- If the places below a command are visited, and no others, then with the command itself its
places are. -/
theorem mem_visit_cons (about : String) (subcommands : List CommandTree) {path : List String}
    {below : List Visit} (hpath : path = above ++ [name])
    (h : ∀ u, u ∈ below ↔ ∃ j place names, u.place = (0 + j) :: place ∧
      subcommands[j]?.bind (namesAt? place) = some names ∧ u.names = path ++ names) (v : Visit) :
    v ∈ ⟨[], path⟩ :: below ↔ ∃ names,
      namesAt? v.place (command name about subcommands) = some names ∧
        v.names = above ++ names := by
  obtain ⟨place, own⟩ := v
  subst hpath
  rw [List.mem_cons, h]
  cases place with
  | nil => simp [namesAt?, CommandTree.name]
  | cons j place =>
    have hat : ∀ names, namesAt? (j :: place) (command name about subcommands) = some names ↔
        ∃ rest, subcommands[j]?.bind (namesAt? place) = some rest ∧ name :: rest = names :=
      fun names => Option.map_eq_some_iff
    have happend : ∀ rest : List String, above ++ name :: rest = above ++ [name] ++ rest :=
      fun rest => (List.append_assoc above [name] rest).symm
    simp only [hat, Nat.zero_add]
    constructor
    · rintro (h | ⟨_, _, names, hplace, hnames, hown⟩)
      · cases h
      · cases hplace
        exact ⟨name :: names, ⟨names, hnames, rfl⟩, hown.trans (happend names).symm⟩
    · rintro ⟨_, ⟨names, hnames, rfl⟩, hown⟩
      exact .inr ⟨j, place, names, rfl, hnames, hown.trans (happend names)⟩

theorem mem_visitsBelow : v ∈ visitsBelow above i cs ↔ ∃ j place names,
    v.place = (i + j) :: place ∧ cs[j]?.bind (namesAt? place) = some names ∧
      v.names = above ++ names := by
  fun_induction visitsBelow above i cs generalizing v with
  | case1 above i => simp
  | case2 above i name about subcommands rest ihbelow ihrest =>
    have hown := mem_visit_cons about subcommands rfl fun _ => ihbelow
    rw [List.mem_append, List.mem_map, ihrest]
    constructor
    · rintro (⟨u, hu, rfl⟩ | ⟨j, place, names, hplace, hnames, hv⟩)
      · obtain ⟨names, hnames, hu⟩ := (hown u).1 hu
        exact ⟨0, u.place, names, rfl, hnames, hu⟩
      · exact ⟨j + 1, place, names, by rw [hplace, Nat.add_right_comm, Nat.add_assoc], hnames, hv⟩
    · rintro ⟨j, place, names, hplace, hnames, hv⟩
      cases j with
      | zero =>
        obtain ⟨_, own⟩ := v
        cases hplace
        exact .inl ⟨⟨place, own⟩, (hown _).2 ⟨names, hnames, hv⟩, rfl⟩
      | succ j =>
        exact .inr ⟨j, place, names, by rw [hplace, Nat.add_right_comm, Nat.add_assoc], hnames, hv⟩

/-- The visits are those of all places that the tree has. -/
theorem mem_visits : v ∈ tree.visits ↔ namesAt? v.place tree = some v.names := by
  obtain ⟨name, about, subcommands⟩ := tree
  have hown := mem_visit_cons about subcommands (List.nil_append [name]).symm
    (fun _ => mem_visitsBelow) v
  rw [visits, hown]
  simp only [List.nil_append, exists_eq_right']

theorem lt_of_mem_visitsBelow (h : v ∈ visitsBelow above i cs) : [] < v.place := by
  obtain ⟨j, place, names, hplace, -⟩ := mem_visitsBelow.1 h
  rw [hplace]
  exact List.nil_lt_cons _ _

/-- A command comes before what is below it, and siblings come in order. -/
theorem pairwise_visitsBelow :
    (visitsBelow above i cs).Pairwise (fun u v => u.place < v.place) := by
  fun_induction visitsBelow above i cs with
  | case1 above i => exact .nil
  | case2 above i name about subcommands rest ihbelow ihrest =>
    have hown : (⟨[], above ++ [name]⟩ :: visitsBelow (above ++ [name]) 0 subcommands).Pairwise
        (fun u v => u.place < v.place) :=
      List.pairwise_cons.2 ⟨fun _ hv => lt_of_mem_visitsBelow hv, ihbelow⟩
    rw [List.pairwise_append, List.pairwise_map]
    refine ⟨hown.imp fun hlt => List.cons_lt_cons_iff.2 (.inr ⟨rfl, hlt⟩), ihrest, ?_⟩
    intro u hu v hv
    obtain ⟨w, -, rfl⟩ := List.mem_map.1 hu
    obtain ⟨j, place, names, hplace, -⟩ := mem_visitsBelow.1 hv
    rw [hplace]
    exact List.cons_lt_cons_iff.2 (.inl (by omega))

theorem pairwise_visits (tree : CommandTree) :
    tree.visits.Pairwise (fun u v => u.place < v.place) := by
  obtain ⟨name, about, subcommands⟩ := tree
  exact List.pairwise_cons.2 ⟨fun _ hv => lt_of_mem_visitsBelow hv, pairwise_visitsBelow⟩

/-! ## 2. Names of files -/

/-- The pages are those of the visits, in the same order. -/
theorem map_file_pagesBelow (h : above ≠ []) (i : Nat) (cs : List CommandTree) :
    (pagesBelow ("-".intercalate above) cs).map Page.file
      = (visitsBelow above i cs).map Visit.file := by
  fun_induction visitsBelow above i cs with
  | case1 above i => simp [pagesBelow]
  | case2 above i name about subcommands rest ihbelow ihrest =>
    have htitle : "-".intercalate above ++ "-" ++ name = "-".intercalate (above ++ [name]) := by
      rw [String.intercalate_append_of_ne_nil h (List.cons_ne_nil name []),
        String.intercalate_singleton]
    have hunder : ∀ vs : List Visit,
        (vs.map (Visit.under i)).map Visit.file = vs.map Visit.file := by
      intro vs
      rw [List.map_map]
      rfl
    have hbelow := ihbelow (List.append_ne_nil_of_right_ne_nil above (List.cons_ne_nil name []))
    rw [List.map_append, hunder, List.map_cons, ← hbelow, ← ihrest h, pagesBelow, htitle,
      List.map_append]
    rfl

theorem map_file_pages (tree : CommandTree) :
    tree.pages.map Page.file = tree.visits.map Visit.file := by
  obtain ⟨name, about, subcommands⟩ := tree
  have hbelow := map_file_pagesBelow (List.cons_ne_nil name []) 0 subcommands
  rw [String.intercalate_singleton] at hbelow
  show Page.file ⟨command name about subcommands, false⟩
    :: (pagesBelow name subcommands).map Page.file = _
  rw [visits, List.map_cons, hbelow]
  exact congrArg (· :: _) (congrArg (· ++ ".1") String.intercalate_singleton.symm)

/-! ## 3. Distinct files -/

/-- No name has a hyphen or a slash, and siblings have different names. -/
inductive WellNamed : CommandTree → Prop
  | command {name about : String} {subcommands : List CommandTree} (hyphen : '-' ∉ name.toList)
      (slash : '/' ∉ name.toList) (siblings : (subcommands.map CommandTree.name).Nodup)
      (below : ∀ c ∈ subcommands, WellNamed c) : WellNamed (command name about subcommands)

variable {place place' : List Nat}

theorem namesAt?_cons_iff {i : Nat} : namesAt? (i :: place) tree = some names ↔ ∃ c rest,
    tree.subcommands[i]? = some c ∧ namesAt? place c = some rest ∧ names = tree.name :: rest := by
  rw [namesAt?, Option.map_eq_some_iff]
  simp only [Option.bind_eq_some_iff]
  constructor
  · rintro ⟨rest, ⟨c, hc, hrest⟩, rfl⟩
    exact ⟨c, rest, hc, hrest, rfl⟩
  · rintro ⟨c, rest, hc, hrest, rfl⟩
    exact ⟨rest, ⟨c, hc, hrest⟩, rfl⟩

theorem head?_of_namesAt? (h : namesAt? place tree = some names) :
    names.head? = some tree.name := by
  cases place with
  | nil =>
    cases h
    rfl
  | cons i place =>
    obtain ⟨c, rest, -, -, rfl⟩ := namesAt?_cons_iff.1 h
    rfl

theorem ne_nil_of_namesAt? (h : namesAt? place tree = some names) : names ≠ [] := by
  rintro rfl
  cases head?_of_namesAt? h

theorem WellNamed.of_mem (h : tree.WellNamed) (hnames : namesAt? place tree = some names) :
    ∀ n ∈ names, '-' ∉ n.toList ∧ '/' ∉ n.toList := by
  induction place generalizing tree names with
  | nil =>
    cases hnames
    cases h with
    | command hyphen slash => exact fun n hn => List.mem_singleton.1 hn ▸ ⟨hyphen, slash⟩
  | cons i place ih =>
    obtain ⟨c, rest, hc, hrest, rfl⟩ := namesAt?_cons_iff.1 hnames
    cases h with
    | command hyphen slash siblings below =>
      intro n hn
      rcases List.mem_cons.1 hn with rfl | hn
      · exact ⟨hyphen, slash⟩
      · exact ih (below c (List.mem_of_getElem? hc)) hrest n hn

theorem eq_of_sibling_names {i j : Nat} {c d : CommandTree}
    (siblings : (cs.map CommandTree.name).Nodup) (hc : cs[i]? = some c) (hd : cs[j]? = some d)
    (hname : c.name = d.name) : i = j := by
  have hi : (cs.map CommandTree.name)[i]? = some c.name := by rw [List.getElem?_map, hc]; rfl
  have hj : (cs.map CommandTree.name)[j]? = some c.name := by rw [List.getElem?_map, hd, hname]; rfl
  exact (List.getElem?_inj (List.getElem?_eq_some_iff.1 hi).1 siblings).1 (hi.trans hj.symm)

/-- The names on the way to a place lead to no other place. -/
theorem WellNamed.place_eq (h : tree.WellNamed) (hplace : namesAt? place tree = some names)
    (hplace' : namesAt? place' tree = some names) : place = place' := by
  induction place generalizing tree names place' with
  | nil =>
    cases hplace
    cases place' with
    | nil => rfl
    | cons j place' =>
      obtain ⟨d, rest, -, hrest, heq⟩ := namesAt?_cons_iff.1 hplace'
      exact absurd (List.cons.inj heq).2.symm (ne_nil_of_namesAt? hrest)
  | cons i place ih =>
    obtain ⟨c, rest, hc, hrest, rfl⟩ := namesAt?_cons_iff.1 hplace
    cases place' with
    | nil =>
      cases hplace'
      exact absurd rfl (ne_nil_of_namesAt? hrest)
    | cons j place' =>
      obtain ⟨d, rest', hd, hrest', heq⟩ := namesAt?_cons_iff.1 hplace'
      obtain rfl : rest = rest' := (List.cons.inj heq).2
      cases h with
      | command hyphen slash siblings below =>
        -- The next name decides among the siblings.
        have hname : c.name = d.name :=
          Option.some.inj ((head?_of_namesAt? hrest).symm.trans (head?_of_namesAt? hrest'))
        obtain rfl := eq_of_sibling_names siblings hc hd hname
        obtain rfl := Option.some.inj (hc.symm.trans hd)
        rw [ih (below c (List.mem_of_getElem? hc)) hrest hrest']

/-- Names without hyphens can be read off the file. -/
theorem Visit.names_eq_of_file_eq {v w : Visit} (hv : v.names ≠ []) (hw : w.names ≠ [])
    (hvnames : ∀ n ∈ v.names, '-' ∉ n.toList) (hwnames : ∀ n ∈ w.names, '-' ∉ n.toList)
    (h : v.file = w.file) : v.names = w.names := by
  have hsplit : ∀ names : List String, names ≠ [] → (∀ n ∈ names, '-' ∉ n.toList) →
      List.splitOn '-' ("-".intercalate names).toList = names.map String.toList := by
    intro names hne hnames
    rw [String.toList_intercalate]
    apply List.splitOn_intercalate
    · intro l hl
      obtain ⟨n, hn, rfl⟩ := List.mem_map.1 hl
      exact hnames n hn
    · exact fun hnil => hne (List.map_eq_nil_iff.1 hnil)
  have hjoined : ("-".intercalate v.names).toList = ("-".intercalate w.names).toList := by
    have htext := congrArg String.toList h
    rw [Visit.file, Visit.file, String.toList_append, String.toList_append] at htext
    exact List.append_cancel_right htext
  have hmaps : v.names.map String.toList = w.names.map String.toList := by
    rw [← hsplit v.names hv hvnames, ← hsplit w.names hw hwnames, hjoined]
  exact List.map_injective_iff.2 (fun _ _ => String.toList_injective) hmaps

theorem not_mem_intercalate {sep : List Char} {ws : List (List Char)} {c : Char} (hsep : c ∉ sep)
    (h : ∀ w ∈ ws, c ∉ w) : c ∉ sep.intercalate ws := by
  induction ws with
  | nil => exact List.not_mem_nil
  | cons w ws ih =>
    cases ws with
    | nil =>
      rw [List.intercalate_singleton]
      exact h w List.mem_cons_self
    | cons u us =>
      rw [List.intercalate_cons_cons, List.mem_append, List.mem_append]
      rintro ((hw | hs) | hrest)
      · exact h w List.mem_cons_self hw
      · exact hsep hs
      · exact ih (fun x hx => h x (List.mem_cons_of_mem w hx)) hrest

theorem Visit.not_startsWith_file {v : Visit} (h : ∀ n ∈ v.names, '/' ∉ n.toList) :
    v.file.startsWith "/" = false := by
  have hnot : '/' ∉ v.file.toList := by
    rw [Visit.file, String.toList_append, String.toList_intercalate, List.mem_append, not_or]
    refine ⟨not_mem_intercalate (by decide) fun w hw => ?_, by decide⟩
    obtain ⟨n, hn, rfl⟩ := List.mem_map.1 hw
    exact h n hn
  rw [← Bool.not_eq_true, String.startsWith_string_iff]
  exact fun hbegins => hnot (hbegins.subset List.mem_cons_self)

theorem inDirectory_inj {directory file file' : String} (h : file.startsWith "/" = false)
    (h' : file'.startsWith "/" = false)
    (heq : inDirectory directory file = inDirectory directory file') : file = file' := by
  rw [inDirectory, inDirectory, h, h', Bool.false_or] at heq
  split at heq
  · exact heq
  · split at heq
    · exact (String.append_right_inj directory).1 heq
    · exact (String.append_right_inj (directory ++ "/")).1 heq

/-- The files of different visits are different. -/
theorem WellNamed.nodup_files (h : tree.WellNamed) (directory : String) :
    (tree.visits.map fun v => inDirectory directory v.file).Nodup := by
  have hnodup : tree.visits.Nodup := tree.pairwise_visits.imp fun hlt heq => by
    rw [heq] at hlt
    exact lt_irrefl _ hlt
  apply hnodup.map_on
  intro v hv w hw heq
  have hv := mem_visits.1 hv
  have hw := mem_visits.1 hw
  have hfile : v.file = w.file := inDirectory_inj
    (Visit.not_startsWith_file fun n hn => (h.of_mem hv n hn).2)
    (Visit.not_startsWith_file fun n hn => (h.of_mem hw n hn).2) heq
  have hnames : v.names = w.names := Visit.names_eq_of_file_eq (ne_nil_of_namesAt? hv)
    (ne_nil_of_namesAt? hw) (fun n hn => (h.of_mem hv n hn).1)
    (fun n hn => (h.of_mem hw n hn).1) hfile
  have hplace : v.place = w.place := h.place_eq (hnames ▸ hv) hw
  cases v
  cases w
  cases hplace
  cases hnames
  rfl

/-! ## 4. Writing -/

section Writing

variable {σ α β : Type} {x : ExceptT Report (StateM σ) α} {f : α → ExceptT Report (StateM σ) β}
  {a : α} {b : β} {s t u : σ}

theorem bind_of_ok (h : x s = (.ok a, t)) : (x >>= f) s = f a t := by
  show StateT.bind x (ExceptT.bindCont f) s = _
  rw [StateT.bind, h]
  rfl

theorem bind_of_error {e : Report} (h : x s = (.error e, t)) : (x >>= f) s = (.error e, t) := by
  show StateT.bind x (ExceptT.bindCont f) s = _
  rw [StateT.bind, h]
  rfl

theorem bind_eq_ok_iff :
    (x >>= f) s = (.ok b, u) ↔ ∃ a t, x s = (.ok a, t) ∧ f a t = (.ok b, u) := by
  constructor
  · intro h
    rcases hx : x s with ⟨_ | a, t⟩
    · rw [bind_of_error hx] at h
      cases h
    · rw [bind_of_ok hx] at h
      exact ⟨a, t, rfl, h⟩
  · rintro ⟨a, t, hx, hf⟩
    rwa [bind_of_ok hx]

theorem pure_eq_ok_iff {c : α} :
    (pure a : ExceptT Report (StateM σ) α) s = (.ok c, u) ↔ a = c ∧ s = u := by
  constructor
  · intro h
    cases h
    exact ⟨rfl, rfl⟩
  · rintro ⟨rfl, rfl⟩
    rfl

theorem withContext_eq_ok_iff {context : String} {action : StateM σ (Except HostError α)} :
    withContext context action s = (.ok a, t) ↔ action s = (.ok a, t) := by
  have hrun : withContext context action s
      = ((action s).1.mapError fun e => ⟨context, [e.message]⟩, (action s).2) := rfl
  rw [hrun]
  rcases action s with ⟨_ | _, u⟩
  · constructor <;> intro h <;> cases h
  · constructor <;> intro h <;> cases h <;> rfl

variable {host : Host (StateM σ)} {directory file : String} {page : Page} {pages : List Page}
  {files : List String}

theorem writePage_eq_ok_iff : writePage host directory page s = (.ok file, u) ↔
    ∃ write t, host.createFile (inDirectory directory page.file) s = (.ok write, t) ∧
      host.renderPage page write t = (.ok (), u) ∧ inDirectory directory page.file = file := by
  simp only [writePage, bind_eq_ok_iff, withContext_eq_ok_iff, pure_eq_ok_iff]
  constructor
  · rintro ⟨write, t, hcreate, _, _, hrender, hfile, rfl⟩
    exact ⟨write, t, hcreate, hrender, hfile⟩
  · rintro ⟨write, t, hcreate, hrender, hfile⟩
    exact ⟨write, t, hcreate, (), u, hrender, hfile, rfl⟩

/-- For each page a file is created and the page is rendered into it, one in the state that the one
before leaves, and all of this succeeds. -/
inductive Written (host : Host (StateM σ)) (directory : String) : List Page → σ → σ → Prop
  | none (s : σ) : Written host directory [] s s
  | page {page : Page} {pages : List Page} {s t u v : σ} {write : Writer (StateM σ)}
      (created : host.createFile (inDirectory directory page.file) s = (.ok write, t))
      (rendered : host.renderPage page write t = (.ok (), u))
      (rest : Written host directory pages u v) : Written host directory (page :: pages) s v

/-- Exactly if each page can be created and rendered, the names of all files are answered. -/
theorem mapM_writePage_eq_ok_iff : pages.mapM (writePage host directory) s = (.ok files, u) ↔
    Written host directory pages s u ∧
      pages.map (fun p => inDirectory directory p.file) = files := by
  induction pages generalizing s u files with
  | nil =>
    rw [List.mapM_nil, pure_eq_ok_iff, List.map_nil]
    constructor
    · rintro ⟨hfiles, rfl⟩
      exact ⟨.none s, hfiles⟩
    · rintro ⟨hwritten, hfiles⟩
      cases hwritten
      exact ⟨hfiles, rfl⟩
  | cons page pages ih =>
    simp only [List.mapM_cons, bind_eq_ok_iff, pure_eq_ok_iff, writePage_eq_ok_iff, ih]
    constructor
    · rintro ⟨_, _, ⟨write, t, hcreate, hrender, rfl⟩, _, _, ⟨hwritten, rfl⟩, rfl, rfl⟩
      exact ⟨.page hcreate hrender hwritten, rfl⟩
    · rintro ⟨hwritten, rfl⟩
      cases hwritten with
      | page created rendered rest =>
        exact ⟨_, _, ⟨_, _, created, rendered, rfl⟩, _, _, ⟨rest, rfl⟩, rfl, rfl⟩

/-- If the directory is known and can be made and every page can be created and rendered, the files
are answered in the pre-order of the commands: one for each place of the tree, in the lexicographic
order of places, each with the names on the way to the place joined by hyphens.  If no name has a
hyphen or a slash and siblings have different names, the files are different. -/
theorem writeManual_visits {directory? : Option String} {r : σ}
    (hdirectory : chosenDirectory host directory? r = (.ok directory, s))
    (hmade : host.makeDirectories directory s = (.ok (), t))
    (hwritten : Written host directory tree.pages t u) :
    ∃ visits : List Visit, visits.Pairwise (fun v w => v.place < w.place) ∧
      (∀ place names, ⟨place, names⟩ ∈ visits ↔ namesAt? place tree = some names) ∧
      writeManual host tree directory? r
        = (.ok (visits.map fun v => inDirectory directory ("-".intercalate v.names ++ ".1")), u) ∧
      (tree.WellNamed →
        (visits.map fun v => inDirectory directory ("-".intercalate v.names ++ ".1")).Nodup) := by
  refine ⟨tree.visits, tree.pairwise_visits, fun place names => mem_visits, ?_, fun h =>
    h.nodup_files directory⟩
  have hfiles : (tree.pages.map fun p => inDirectory directory p.file)
      = tree.visits.map fun v => inDirectory directory v.file := by
    have hmap := congrArg (List.map (inDirectory directory)) tree.map_file_pages
    rwa [List.map_map, List.map_map] at hmap
  have hpages := mapM_writePage_eq_ok_iff.2 ⟨hwritten, hfiles⟩
  exact bind_eq_ok_iff.2 ⟨directory, s, hdirectory,
    bind_eq_ok_iff.2 ⟨(), t, withContext_eq_ok_iff.2 hmade, hpages⟩⟩

/-- A host on which everything succeeds, and that notes what is written, and where. -/
def noting : Host (StateM (List (String × List UInt8))) where
  input := pure (.ok [])
  currentDirectory := pure (.ok "work")
  openFile _ := pure (.error .notFound)
  isDirectory _ := pure true
  makeDirectory _ := pure (.ok ())
  createFile file := fun noted =>
    (.ok fun bytes noted => (.ok (), noted ++ [(file, bytes)]), noted ++ [(file, [])])
  renderPage := titlePage

theorem exists_written_noting (directory : String) (pages : List Page)
    (noted : List (String × List UInt8)) : ∃ after, Written noting directory pages noted after := by
  induction pages generalizing noted with
  | nil => exact ⟨noted, .none noted⟩
  | cons page pages ih =>
    obtain ⟨after, hrest⟩ := ih _
    exact ⟨after, .page rfl rfl hrest⟩

/-- Two commands have a subcommand of the same name. -/
theorem writeManual_visits_tool :
    let tool : CommandTree := .command "tool" "" [.command "show" "" [.command "man" "" []],
      .command "gen" "" [.command "man" "" [], .command "shell" "" []]]
    ∃ (written : List (String × List UInt8)) (visits : List Visit),
      (chosenDirectory noting none [] = (.ok "work", []) ∧
        noting.makeDirectories "work" [] = (.ok (), []) ∧
        Written noting "work" tool.pages [] written ∧ tool.WellNamed) ∧
      visits.Pairwise (fun v w => v.place < w.place) ∧
      (∀ place names, ⟨place, names⟩ ∈ visits ↔ namesAt? place tool = some names) ∧
      writeManual noting tool none []
        = (.ok (visits.map fun v => inDirectory "work" ("-".intercalate v.names ++ ".1")), written) ∧
      (visits.map fun v => inDirectory "work" ("-".intercalate v.names ++ ".1")).Nodup := by
  intro tool
  have hdirectory : chosenDirectory noting none [] = (.ok "work", []) := rfl
  have hmade : noting.makeDirectories "work" [] = (.ok (), []) := rfl
  obtain ⟨written, hwritten⟩ := exists_written_noting "work" tool.pages []
  have hleaf : ∀ name : String, '-' ∉ name.toList → '/' ∉ name.toList →
      WellNamed (.command name "" []) := fun name hyphen slash =>
    .command hyphen slash List.nodup_nil fun c hc => absurd hc List.not_mem_nil
  have hman := hleaf "man" (by decide) (by decide)
  have hshell := hleaf "shell" (by decide) (by decide)
  have hshow : WellNamed (.command "show" "" [.command "man" "" []]) :=
    .command (by decide) (by decide) (by decide) (List.forall_mem_singleton.2 hman)
  have hgen : WellNamed (.command "gen" "" [.command "man" "" [], .command "shell" "" []]) :=
    .command (by decide) (by decide) (by decide)
      (List.forall_mem_cons.2 ⟨hman, List.forall_mem_singleton.2 hshell⟩)
  have hnamed : tool.WellNamed := .command (by decide) (by decide) (by decide)
    (List.forall_mem_cons.2 ⟨hshow, List.forall_mem_singleton.2 hgen⟩)
  obtain ⟨visits, hordered, hplaces, hrun, hdistinct⟩ :=
    writeManual_visits hdirectory hmade hwritten
  exact ⟨written, visits, ⟨hdirectory, hmade, hwritten, hnamed⟩, hordered, hplaces, hrun,
    hdistinct hnamed⟩

end Writing

end CommandTree

end Command

end JsonAutomata
