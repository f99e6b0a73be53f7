import Locomotive.Path
import Locomotive.Proofs.Split
import Mathlib.Data.List.Basic
import Mathlib.Data.List.Induction

/-!
# Where a compiled file goes

A clean path from the root is a list of names, each of which leads one directory down. The directory and the last name
of such a path, and what cleaning makes of a path with more names behind it, are seen on the names.

The output of a source has the name of the source with another extension, and goes next to the source or into a given
directory. In the given directory the name without its extension is a name like all others, so a file called `..bas`
or `...bas` goes to where `.` or `..` leads.

* `Path.rooted`, `Path.Proper`: clean paths from the root.
* `Path.In`: a file in a directory.
* `Path.outputPath_in`: the output of a source.
-/

namespace Locomotive.Path

/-! ## Clean paths -/

/-- **A name that leads one directory down.** -/
structure Proper (name : List Char) : Prop where
  ne_nil : name ≠ []
  ne_dot : name ≠ ['.']
  ne_up : name ≠ up
  slashless : '/' ∉ name

/-- The path from the root along the names. -/
def rooted (names : List (List Char)) : List Char := '/' :: List.intercalate ['/'] names

/-- The names with a slash behind each. -/
def folder (names : List (List Char)) : List Char := '/' :: names.flatMap (· ++ ['/'])

theorem rooted_snoc (names : List (List Char)) (n : List Char) : rooted (names ++ [n]) = folder names ++ n := by
  rw [rooted, folder, List.cons_append, List.cons.injEq]
  refine ⟨rfl, ?_⟩
  induction names with
  | nil => simp [List.intercalate]
  | cons m names ih =>
    obtain ⟨k, ks, hks⟩ := List.exists_cons_of_ne_nil (List.append_ne_nil_of_right_ne_nil names (List.cons_ne_nil n []))
    rw [List.cons_append, List.flatMap_cons, List.append_assoc, ← ih, hks]
    simp [List.intercalate]

theorem folder_snoc (names : List (List Char)) (n : List Char) : folder (names ++ [n]) = rooted (names ++ [n]) ++ ['/'] := by
  rw [rooted_snoc]
  simp [folder]

theorem folder_ends (names : List (List Char)) : ∃ cs, folder names = cs ++ ['/'] := by
  obtain rfl | ⟨init, n, rfl⟩ := names.eq_nil_or_concat'
  · exact ⟨[], rfl⟩
  · exact ⟨_, folder_snoc init n⟩

theorem length_rooted_snoc (names : List (List Char)) {n : List Char} (h : n ≠ []) :
    (rooted names).length < (rooted (names ++ [n])).length := by
  have hn := List.length_pos_iff.2 h
  obtain rfl | ⟨init, m, rfl⟩ := names.eq_nil_or_concat'
  · simp [rooted, List.intercalate, hn]
  · rw [rooted_snoc _ n, folder_snoc, List.length_append, List.length_append]
    omega

theorem length_rooted_le {names more : List (List Char)} (h : ∀ n ∈ more, Proper n) :
    (rooted names).length ≤ (rooted (names ++ more)).length := by
  induction more using List.reverseRecOn with
  | nil => simp
  | append_singleton more n ih =>
    obtain ⟨h, hn⟩ := List.forall_mem_append.1 h
    have hsnoc := length_rooted_snoc (names ++ more) (hn n (List.mem_singleton_self n)).ne_nil
    rw [← List.append_assoc]
    exact Nat.le_trans (ih h) (Nat.le_of_lt hsnoc)

/-- The names that a path from the root leads along, the last one first. -/
def walked (p : List Char) : List (List Char) := (Text.splitAt '/' p).foldl (push true) []

theorem clean_of_isAbsolute {p : List Char} (h : isAbsolute p = true) : clean p = rooted (walked p).reverse := by
  rw [clean, h, if_pos rfl]
  rfl

theorem push_proper {name : List Char} (h : Proper name) (names : List (List Char)) :
    push true names name = name :: names := by
  rw [push.eq_def, if_neg (not_or.2 ⟨h.ne_nil, h.ne_dot⟩), if_neg h.ne_up]

theorem proper_push {names : List (List Char)} (h : ∀ n ∈ names, Proper n) {name : List Char} (hname : '/' ∉ name) :
    ∀ n ∈ push true names name, Proper n := by
  rw [push.eq_def]
  split
  · exact h
  · rename_i hskip
    obtain ⟨hnil, hdot⟩ := not_or.1 hskip
    split
    · cases names with
      | nil => exact fun n hn => absurd hn List.not_mem_nil
      | cons last rest =>
        dsimp only
        rw [if_neg (h last List.mem_cons_self).ne_up]
        exact fun n hn => h n (List.mem_cons_of_mem last hn)
    · rename_i hup
      exact List.forall_mem_cons.2 ⟨⟨hnil, hdot, hup, hname⟩, h⟩

/-- A piece that is no proper name leads nowhere or up. -/
theorem push_suffix {names : List (List Char)} (h : ∀ n ∈ names, Proper n) {piece : List Char} (hslash : '/' ∉ piece)
    (hpiece : ¬ Proper piece) : push true names piece <:+ names := by
  rw [push.eq_def]
  split
  · exact List.suffix_refl names
  · rename_i hskip
    obtain ⟨hnil, hdot⟩ := not_or.1 hskip
    have hup : piece = up := Classical.byContradiction fun hup => hpiece ⟨hnil, hdot, hup, hslash⟩
    rw [if_pos hup]
    cases names with
    | nil => exact List.suffix_refl []
    | cons last rest =>
      dsimp only
      rw [if_neg (h last List.mem_cons_self).ne_up]
      exact List.suffix_cons last rest

theorem proper_walked (p : List Char) : ∀ n ∈ walked p, Proper n := by
  have hfold : ∀ (pieces names : List (List Char)), (∀ q ∈ pieces, '/' ∉ q) → (∀ n ∈ names, Proper n) →
      ∀ n ∈ pieces.foldl (push true) names, Proper n := by
    intro pieces
    induction pieces with
    | nil => exact fun names _ h => h
    | cons q pieces ih =>
      intro names hpieces h
      obtain ⟨hq, hpieces⟩ := List.forall_mem_cons.1 hpieces
      exact ih _ hpieces (proper_push h hq)
  exact hfold _ [] (fun q hq => Text.not_mem_of_mem_splitAt hq) (fun n hn => absurd hn List.not_mem_nil)

theorem walked_append (p q : List Char) : walked (p ++ '/' :: q) = (Text.splitAt '/' q).foldl (push true) (walked p) := by
  rw [walked, Text.splitAt_append, List.foldl_append, walked]

theorem join_eq {p : List Char} (h : isAbsolute p = true) (q : List Char) :
    join p q = clean (p ++ '/' :: q) ∧ isAbsolute (p ++ '/' :: q) = true := by
  cases p with
  | nil => cases h
  | cons c cs => exact ⟨rfl, h⟩

/-- The names of a path and one more piece behind them. -/
theorem walked_folder {names : List (List Char)} (h : ∀ n ∈ names, Proper n) {piece : List Char} (hpiece : '/' ∉ piece) :
    walked (folder names ++ piece) = push true names.reverse piece := by
  induction names using List.reverseRecOn generalizing piece with
  | nil =>
    refine (walked_append [] piece).trans ?_
    rw [Text.splitAt_of_not_mem hpiece]
    rfl
  | append_singleton names n ih =>
    obtain ⟨h, hn⟩ := List.forall_mem_append.1 h
    have hn := hn n (List.mem_singleton_self n)
    rw [folder_snoc, rooted_snoc, List.append_assoc]
    refine (walked_append _ piece).trans ?_
    rw [Text.splitAt_of_not_mem hpiece, ih h hn.slashless, push_proper hn, List.reverse_append]
    rfl

theorem clean_folder {names : List (List Char)} (h : ∀ n ∈ names, Proper n) : clean (folder names) = rooted names := by
  have hwalked : walked (folder names ++ []) = push true names.reverse [] := walked_folder h List.not_mem_nil
  rw [List.append_nil] at hwalked
  rw [clean_of_isAbsolute rfl, hwalked, push.eq_def, if_pos (.inl rfl), List.reverse_reverse]

/-- **A clean path from the root** is one along proper names. -/
theorem eq_rooted {p : List Char} (habs : isAbsolute p = true) (hclean : clean p = p) :
    ∃ names, (∀ n ∈ names, Proper n) ∧ p = rooted names :=
  ⟨(walked p).reverse, fun n hn => proper_walked p n (List.mem_reverse.1 hn), by rw [← clean_of_isAbsolute habs, hclean]⟩

/-! ## Directories and names -/

theorem dropEndWhile_append {p : Char → Bool} {as bs : List Char} (ha : ∀ a ∈ as.getLast?, p a = false)
    (hb : ∀ b ∈ bs, p b = true) : Text.dropEndWhile p (as ++ bs) = as := by
  rw [Text.dropEndWhile, List.reverse_append, List.dropWhile_append_of_pos fun b hb' => hb b (List.mem_reverse.1 hb')]
  obtain rfl | ⟨init, a, rfl⟩ := as.eq_nil_or_concat'
  · rfl
  · rw [List.reverse_append, List.reverse_singleton, List.singleton_append, List.dropWhile_cons_of_neg]
    · simp
    · simp [ha a (by simp)]

theorem directory_folder {names : List (List Char)} (h : ∀ n ∈ names, Proper n) {n : List Char} (hn : '/' ∉ n) :
    directory (folder names ++ n) = rooted names := by
  obtain ⟨cs, hcs⟩ := folder_ends names
  have hdrop : Text.dropEndWhile (· != '/') (folder names ++ n) = folder names := by
    refine dropEndWhile_append (fun a ha => ?_) fun b hb => ?_
    · rw [hcs, List.getLast?_concat] at ha
      cases ha
      rfl
    · exact bne_iff_ne.2 fun heq => hn (heq ▸ hb)
  rw [directory, hdrop, clean_folder h]

/-- The last name of a path, with any slashes behind it. -/
theorem base_folder (names : List (List Char)) {n : List Char} (hne : n ≠ []) (hn : '/' ∉ n) {slashes : List Char}
    (hslashes : ∀ c ∈ slashes, c = '/') : base (folder names ++ n ++ slashes) = n := by
  obtain ⟨cs, hcs⟩ := folder_ends names
  have htrimmed : Text.dropEndWhile (· == '/') (folder names ++ n ++ slashes) = folder names ++ n := by
    refine dropEndWhile_append (fun a ha => ?_) fun b hb => beq_iff_eq.2 (hslashes b hb)
    rw [List.getLast?_append, Option.or_of_isSome (by simpa using hne)] at ha
    exact beq_false_of_ne fun heq => hn (heq ▸ List.mem_of_getLast? ha)
  have hname : (folder names ++ n).reverse.takeWhile (· != '/') = n.reverse := by
    have hpos : ∀ c ∈ n.reverse, (c != '/') = true := fun c hc =>
      bne_iff_ne.2 fun heq => hn (heq ▸ List.mem_reverse.1 hc)
    rw [hcs, List.reverse_append, List.takeWhile_append_of_pos hpos]
    simp
  rw [base, htrimmed, hname, List.reverse_reverse]
  rfl

/-! ## The output of a source -/

/-- **The name without its last extension.** -/
def IsStem (stem name : List Char) : Prop :=
  ('.' ∉ name ∧ stem = name) ∨ ∃ ext, '.' ∉ ext ∧ name = stem ++ '.' :: ext

theorem exists_stem (name : List Char) : ∃ stem, IsStem stem name := by
  by_cases h : '.' ∈ name
  · obtain ⟨ext, stem, hname, hext⟩ := List.eq_append_cons_of_mem (List.mem_reverse.2 h)
    refine ⟨stem.reverse, .inr ⟨ext.reverse, mt List.mem_reverse.1 hext, ?_⟩⟩
    have := congrArg List.reverse hname
    simpa using this
  · exact ⟨name, .inl ⟨h, rfl⟩⟩

theorem IsStem.slashless {stem name : List Char} (h : IsStem stem name) (hname : '/' ∉ name) : '/' ∉ stem := by
  obtain ⟨-, rfl⟩ | ⟨ext, -, rfl⟩ := h
  · exact hname
  · exact fun hmem => hname (List.mem_append_left _ hmem)

theorem dropExtension_folder (names : List (List Char)) {stem n : List Char} (h : IsStem stem n) (hn : '/' ∉ n) :
    dropExtension (folder names ++ n) = folder names ++ stem := by
  unfold dropExtension
  obtain ⟨hdot, rfl⟩ | ⟨ext, hdot, rfl⟩ := h
  · obtain ⟨cs, hcs⟩ := folder_ends names
    have hpos : ∀ c ∈ stem.reverse, (c != '.' && c != '/') = true := fun c hc => by
      have hc := List.mem_reverse.1 hc
      exact Bool.and_eq_true_iff.2 ⟨bne_iff_ne.2 fun heq => hdot (heq ▸ hc), bne_iff_ne.2 fun heq => hn (heq ▸ hc)⟩
    have hdrop : (folder names ++ stem).reverse.dropWhile (fun c => c != '.' && c != '/') = '/' :: cs.reverse := by
      rw [hcs, List.reverse_append, List.dropWhile_append_of_pos hpos]
      simp
    rw [hdrop]
    rfl
  · have hpos : ∀ c ∈ ext.reverse, (c != '.' && c != '/') = true := fun c hc => by
      have hc := List.mem_reverse.1 hc
      exact Bool.and_eq_true_iff.2 ⟨bne_iff_ne.2 fun heq => hdot (heq ▸ hc), bne_iff_ne.2 fun heq => hn (heq ▸ by simp [hc])⟩
    have hdrop : (folder names ++ (stem ++ '.' :: ext)).reverse.dropWhile (fun c => c != '.' && c != '/') =
        '.' :: (folder names ++ stem).reverse := by
      rw [← List.append_assoc, List.reverse_append, List.reverse_cons, List.append_assoc, List.dropWhile_append_of_pos hpos]
      rfl
    rw [hdrop]
    exact List.reverse_reverse _

/-- **The file `name` in the directory `dir`.** -/
structure In (file dir name : List Char) : Prop where
  clean : Path.clean file = file
  directory : Path.directory file = dir
  base : Path.base file = name

theorem in_rooted {names : List (List Char)} (h : ∀ n ∈ names, Proper n) {n : List Char} (hn : Proper n) :
    In (rooted (names ++ [n])) (rooted names) n := by
  refine ⟨?_, ?_, ?_⟩
  · rw [rooted_snoc, clean_of_isAbsolute rfl, walked_folder h hn.slashless, push_proper hn, ← rooted_snoc]
    simp
  · rw [rooted_snoc, directory_folder h hn.slashless]
  · have hbase : base (folder names ++ n ++ []) = n := base_folder names hn.ne_nil hn.slashless (by simp)
    rwa [List.append_nil, ← rooted_snoc] at hbase

theorem clean_clean {p : List Char} (h : isAbsolute p = true) : clean (clean p) = clean p := by
  have hproper : ∀ n ∈ (walked p).reverse, Proper n := fun n hn => proper_walked p n (List.mem_reverse.1 hn)
  rw [clean_of_isAbsolute h]
  obtain hnil | ⟨init, n, heq⟩ := (walked p).reverse.eq_nil_or_concat'
  · rw [hnil]
    rfl
  · rw [heq] at hproper ⊢
    obtain ⟨hinit, hn⟩ := List.forall_mem_append.1 hproper
    exact (in_rooted hinit (hn n (List.mem_singleton_self n))).clean

theorem proper_js {stem : List Char} (h : '/' ∉ stem) : Proper (stem ++ ['.', 'j', 's']) := by
  have hlength : 3 ≤ (stem ++ ['.', 'j', 's']).length := by simp
  refine ⟨?_, ?_, ?_, by simp [h]⟩ <;> intro heq <;> rw [heq] at hlength <;> exact absurd hlength (by decide)

/-- An extension behind a directory belongs to the last name of it, so the file is not in there. -/
theorem in_rooted_js {names : List (List Char)} (h : ∀ n ∈ names, Proper n) {dir name : List Char}
    (hin : In (rooted names ++ ['.', 'j', 's']) dir name) :
    names = [] ∧ name = ['.', 'j', 's'] ∨ dir.length < (rooted names).length := by
  obtain rfl | ⟨init, n, rfl⟩ := names.eq_nil_or_concat'
  · exact .inl ⟨rfl, hin.base.symm.trans rfl⟩
  · obtain ⟨hinit, hn⟩ := List.forall_mem_append.1 h
    have hn := hn n (List.mem_singleton_self n)
    have hreal := in_rooted hinit (proper_js hn.slashless)
    rw [rooted_snoc, ← List.append_assoc, ← rooted_snoc] at hreal
    refine .inr ?_
    rw [← hin.directory, hreal.directory]
    exact length_rooted_snoc init hn.ne_nil

theorem rooted_eq_root_iff {names : List (List Char)} (h : ∀ n ∈ names, Proper n) : rooted names = ['/'] ↔ names = [] := by
  refine ⟨fun heq => ?_, fun heq => heq ▸ rfl⟩
  obtain rfl | ⟨init, n, rfl⟩ := names.eq_nil_or_concat'
  · rfl
  · have hlength := length_rooted_snoc init (h n (by simp)).ne_nil
    rw [heq] at hlength
    exact absurd hlength (by simp [rooted])

/-- What is made of a given directory and a source in the directory `names`. -/
theorem outputPath_given {names : List (List Char)} {stem n dir : List Char} (hstem : IsStem stem n) (hn : '/' ∉ n)
    (hdir : isAbsolute dir = true) : outputPath (folder names ++ n) dir =
      rooted ((Text.splitAt '/' (base (folder names ++ stem))).foldl (push true) (walked dir)).reverse ++ ['.', 'j', 's'] := by
  obtain ⟨hjoin, hrooted⟩ := join_eq hdir (base (folder names ++ stem))
  have hempty : dir.isEmpty = false := by
    cases dir with
    | nil => cases hdir
    | cons c cs => rfl
  rw [outputPath, dropExtension_folder names hstem hn, hempty, if_neg Bool.false_ne_true, hjoin,
    clean_of_isAbsolute hrooted, walked_append]

theorem outputPath_given_iff {names : List (List Char)} (hnames : ∀ n ∈ names, Proper n) {stem n dir : List Char}
    (hstem : IsStem stem n) (hn : Proper n) (hdir : isAbsolute dir = true) :
    In (outputPath (folder names ++ n) dir) (clean dir) (stem ++ ['.', 'j', 's']) ↔
      Proper stem ∨ stem = [] ∧ names = [] ∧ clean dir = ['/'] := by
  have hslashless := hstem.slashless hn.slashless
  have hwalked : ∀ m ∈ (walked dir).reverse, Proper m := fun m hm => proper_walked dir m (List.mem_reverse.1 hm)
  rw [outputPath_given hstem hn.slashless hdir, clean_of_isAbsolute hdir, rooted_eq_root_iff hwalked]
  by_cases hnil : stem = []
  · subst hnil
    rw [List.append_nil]
    obtain rfl | ⟨init, l, rfl⟩ := names.eq_nil_or_concat'
    · -- the root has no name, so nothing is put behind the directory
      have hstay : (Text.splitAt '/' (base (folder []))).foldl (push true) (walked dir) = walked dir := by
        change push true (push true (walked dir) []) [] = walked dir
        simp [push.eq_def]
      rw [hstay]
      refine ⟨fun hin => ?_, ?_⟩
      · obtain ⟨hroot, -⟩ | hlt := in_rooted_js hwalked hin
        · exact .inr ⟨rfl, rfl, hroot⟩
        · exact absurd hlt (Nat.lt_irrefl _)
      · rintro (hproper | ⟨-, -, hroot⟩)
        · exact absurd rfl hproper.ne_nil
        · rw [hroot]
          exact @in_rooted [] (fun m hm => absurd hm List.not_mem_nil) _ (proper_js hslashless)
    · -- the name of the source is the name of its directory
      have hl := hnames l (by simp)
      rw [folder_snoc, rooted_snoc, base_folder init hl.ne_nil hl.slashless (by simp), Text.splitAt_of_not_mem hl.slashless,
        List.foldl_cons, List.foldl_nil, push_proper hl, List.reverse_cons, rooted_snoc, List.append_assoc, ← rooted_snoc]
      refine iff_of_false (fun hin => ?_) ?_
      · have hname := hin.base.symm.trans (in_rooted hwalked (proper_js hl.slashless)).base
        exact hl.ne_nil (List.append_cancel_right hname).symm
      · rintro (hproper | ⟨-, hroot, -⟩)
        · exact hproper.ne_nil rfl
        · exact absurd hroot (by simp)
  · have hbase : base (folder names ++ stem ++ []) = stem := base_folder names hnil hslashless (by simp)
    rw [List.append_nil] at hbase
    rw [hbase, Text.splitAt_of_not_mem hslashless, List.foldl_cons, List.foldl_nil]
    by_cases hproper : Proper stem
    · rw [push_proper hproper, List.reverse_cons, rooted_snoc, List.append_assoc, ← rooted_snoc]
      exact iff_of_true (in_rooted hwalked (proper_js hslashless)) (.inl hproper)
    · refine iff_of_false (fun hin => ?_) (not_or.2 ⟨hproper, fun h => hnil h.1⟩)
      obtain ⟨more, hmore⟩ := List.reverse_prefix.2 (push_suffix (proper_walked dir) hslashless hproper)
      rw [← hmore] at hin hwalked
      obtain ⟨habove, hrest⟩ := List.forall_mem_append.1 hwalked
      obtain ⟨-, hname⟩ | hlt := in_rooted_js habove hin
      · exact hnil (List.append_cancel_right (hname.trans (List.nil_append _).symm))
      · exact absurd hlt (Nat.not_lt.2 (length_rooted_le hrest))

theorem outputPath_beside (names : List (List Char)) {stem n : List Char} (hstem : IsStem stem n) (hn : '/' ∉ n) :
    outputPath (folder names ++ n) [] = rooted (names ++ [stem ++ ['.', 'j', 's']]) := by
  rw [outputPath, dropExtension_folder names hstem hn, rooted_snoc, ← List.append_assoc]
  rfl

/-- A given directory is meant from the directory of the source. -/
theorem sourcePaths_given {w source outDir : List Char} (habs : isAbsolute source = true)
    (hclean : clean source = source) (hdirectory : isAbsolute (directory source) = true) (hne : outDir ≠ []) :
    isAbsolute (sourcePaths w source outDir).2 = true ∧
      clean (sourcePaths w source outDir).2 = absolute (directory source) outDir := by
  have hfull : absolute w source = source := by rw [absolute, if_pos habs, hclean]
  unfold sourcePaths
  dsimp only
  rw [hfull, List.isEmpty_eq_false_iff.2 hne]
  cases hrooted : isAbsolute outDir with
  | true => exact ⟨hrooted, by rw [absolute, if_pos hrooted]; rfl⟩
  | false =>
    obtain ⟨hjoin, hrooted'⟩ := join_eq hdirectory outDir
    have habsolute : absolute (directory source) outDir = join (directory source) outDir := by
      rw [absolute, if_neg (by rw [hrooted]; exact Bool.false_ne_true)]
    rw [habsolute, hjoin]
    exact ⟨clean_of_isAbsolute hrooted' ▸ rfl, clean_clean hrooted'⟩

/-- **Where the output goes.** The source is a clean path of a file, from the root. Without a directory the output is
next to the source. With one, it is in there exactly if the name of the source has a proper name in front of its
extension; the one exception is a source in the root that goes to the root. -/
theorem outputPath_in (workingDir outDir : List Char) {source : List Char} (habs : isAbsolute source = true)
    (hclean : clean source = source) (hfile : source ≠ ['/']) :
    ∃ stem dir, IsStem stem (base source) ∧ sourcePaths workingDir source outDir = (source, dir) ∧
      (outDir = [] → dir = [] ∧ In (outputPath source dir) (directory source) (stem ++ ['.', 'j', 's'])) ∧
      (outDir ≠ [] → isAbsolute dir = true ∧ clean dir = absolute (directory source) outDir ∧
        (In (outputPath source dir) (clean dir) (stem ++ ['.', 'j', 's']) ↔
          Proper stem ∨ stem = [] ∧ directory source = ['/'] ∧ clean dir = ['/'])) := by
  obtain ⟨names, hnames, rfl⟩ := eq_rooted habs hclean
  obtain rfl | ⟨init, n, rfl⟩ := names.eq_nil_or_concat'
  · exact absurd rfl hfile
  obtain ⟨hinit, hn⟩ := List.forall_mem_append.1 hnames
  have hn := hn n (List.mem_singleton_self n)
  have hin := in_rooted hinit hn
  obtain ⟨stem, hstem⟩ := exists_stem n
  have hfull : absolute workingDir (rooted (init ++ [n])) = rooted (init ++ [n]) := by rw [absolute, if_pos habs, hclean]
  refine ⟨stem, _, hin.base.symm ▸ hstem, Prod.ext hfull rfl, ?_, ?_⟩
  · rintro rfl
    refine ⟨rfl, ?_⟩
    rw [hin.directory, rooted_snoc]
    change In (outputPath _ []) _ _
    rw [outputPath_beside init hstem hn.slashless]
    exact in_rooted hinit (proper_js (hstem.slashless hn.slashless))
  · intro hne
    obtain ⟨hrooted, hdir⟩ := sourcePaths_given (w := workingDir) habs hclean (hin.directory ▸ rfl) hne
    refine ⟨hrooted, hdir, ?_⟩
    have hiff := outputPath_given_iff hinit hstem hn hrooted
    rw [← rooted_snoc] at hiff
    rw [hiff, hin.directory, rooted_eq_root_iff hinit]

/-- A name with two extensions loses the last one, and the directory is found from that of the source. -/
theorem outputPath_in_sibling :
    isAbsolute "/home/me/game.v2.bas".toList = true ∧ clean "/home/me/game.v2.bas".toList = "/home/me/game.v2.bas".toList ∧
      "/home/me/game.v2.bas".toList ≠ ['/'] ∧ ∃ dir,
        sourcePaths [] "/home/me/game.v2.bas".toList "../out//js".toList = ("/home/me/game.v2.bas".toList, dir) ∧
        In (outputPath "/home/me/game.v2.bas".toList dir) "/home/out/js".toList "game.v2.js".toList := by
  have habs : isAbsolute "/home/me/game.v2.bas".toList = true := by decide +kernel
  have hclean : clean "/home/me/game.v2.bas".toList = "/home/me/game.v2.bas".toList := by decide +kernel
  have hfile : "/home/me/game.v2.bas".toList ≠ ['/'] := by decide +kernel
  obtain ⟨stem, dir, hstem, hpaths, -, hgiven⟩ := outputPath_in [] "../out//js".toList habs hclean hfile
  obtain ⟨-, hdir, hiff⟩ := hgiven (by decide +kernel)
  have hname : folder [] ++ "game.v2".toList = folder [] ++ stem := by
    rw [← dropExtension_folder [] hstem (by decide +kernel)]
    decide +kernel
  obtain rfl := List.append_cancel_left hname
  have hdirectory : clean dir = "/home/out/js".toList := hdir.trans (by decide +kernel)
  rw [hdirectory] at hiff
  refine ⟨habs, hclean, hfile, dir, hpaths, hiff.2 (.inl ⟨?_, ?_, ?_, ?_⟩)⟩ <;> decide +kernel

/-- **The output of `..bas` is not in the given directory**, but beside it. -/
theorem outputPath_not_in : sourcePaths [] "/a/..bas".toList "/out".toList = ("/a/..bas".toList, "/out".toList) ∧
    IsStem ['.'] (base "/a/..bas".toList) ∧ outputPath "/a/..bas".toList "/out".toList = "/out.js".toList ∧
    ¬ In (outputPath "/a/..bas".toList "/out".toList) (clean "/out".toList) "..js".toList := by
  refine ⟨by decide +kernel, .inr ⟨"bas".toList, by decide +kernel, by decide +kernel⟩, by decide +kernel, fun hin => ?_⟩
  exact absurd hin.directory (by decide +kernel)

end Locomotive.Path
