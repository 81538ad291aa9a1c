import PathQuery.Proofs.Labels.Pattern
import PathQuery.Proofs.Query.Block
import PathQuery.Proofs.Query.Idle

/-! The lines of a query that tell of names: they are comments, so the query without them is the same. What is
left of it is made from a pattern and from counts that know no names. -/
namespace PathQuery
open Grammar Text

def SelectionGraph.Legible (g : SelectionGraph) : Prop := ∀ n ∈ g.nodes, OneLine n.name.toList

instance (g : SelectionGraph) : Decidable g.Legible := inferInstanceAs (Decidable (∀ n ∈ g.nodes, _))

variable {g : SelectionGraph}

theorem legibleRestrict (legible : g.Legible) (ids : List String) : (g.restrict ids).Legible :=
  fun n member => legible n (List.mem_filter.mp member).1

theorem legibleCentral (legible : g.Legible) (id : String) : (g.withCentral id).Legible := legible

theorem arrowLine (arrow : Arrow) : OneLine arrow.label.toList :=
  oneLinePlain (arrowPlain arrow).1 (arrowPlain arrow).2

theorem transitionIdle {parent name : String} (source : OneLine parent.toList) (target : OneLine name.toList)
    (arrow : Arrow) : IsIdle (transitionComment parent arrow.label name).toList := by
  have text : (transitionComment parent arrow.label name).toList =
      '#' :: ([] ++ ' ' :: (parent.toList ++ ' ' :: (arrow.label.toList ++ ' ' :: name.toList))) := by
    simp [transitionComment]
  rw [text]
  exact idleComment (oneLineSpaced (oneLinePlain (by simp) (by simp))
    (oneLineSpaced source (oneLineSpaced (arrowLine arrow) target)))

theorem centralIdle {name : String} (line : OneLine name.toList) : IsIdle (centralComment name).toList := by
  have before : OneLine " >>>> Central node:".toList := oneLinePlain (by simp) (by simp)
  have after : OneLine "<<<<".toList := oneLinePlain (by simp) (by simp)
  have text : (centralComment name).toList =
      '#' :: (" >>>> Central node:".toList ++ ' ' :: (name.toList ++ ' ' :: "<<<<".toList)) := by
    unfold centralComment
    simp only [String.toList_append,List.append_assoc]
    rfl
  rw [text]
  exact idleComment (oneLineSpaced before (oneLineSpaced line after))

theorem marginPlain (n : Nat) : ∀ c ∈ List.replicate n ' ', c = ' ' := fun _ => List.eq_of_mem_replicate

theorem indentPlain (depth : Int) : ∀ c ∈ indent depth, c = ' ' := marginPlain _

theorem saidIdle (legible : g.Legible) (namespaces : NamespaceTable) {line : Line} (said : g.Says line)
    (quiet : line.isSolid = false) : IsIdle (line.text namespaces) := by
  cases said with
  | blank => exact idleBlank
  | note depth remark =>
      obtain ⟨arrow,m,first,n,second,rfl⟩ := remark
      exact idleMargin (indentPlain depth) (transitionIdle (legible m first) (legible n second) arrow)
  | marker member => exact centralIdle (legible _ member)
  | opening scope => contradiction
  | closing scope => contradiction
  | triple depth asked => contradiction

theorem patternIdle {p : Pattern} (legible : g.Legible) (sourced : p.Sourced g) (namespaces : NamespaceTable)
    (excluded : List Triple) :
    ∀ line ∈ p.lines excluded, line.isSolid = false → IsIdle (line.text namespaces) :=
  fun line member => saidIdle legible namespaces (Pattern.linesSaid sourced excluded line member)

def CountBlock.bare (b : CountBlock) : CountBlock :=
  { b with comment := none, body := b.body.filter Line.isSolid }

structure CountBlock.Hushed (namespaces : NamespaceTable) (b : CountBlock) : Prop where
  comment : ∀ text ∈ b.comment, IsIdle text.toList
  body : ∀ line ∈ b.body, line.isSolid = false → IsIdle (line.text namespaces)

theorem solidRename (names : Renaming) (line : Line) : (line.rename names).isSolid = line.isSolid := by
  cases line <;> rfl

theorem nameLegible (legible : g.Legible) {id name : String} (found : g.nameOf id = some name) :
    OneLine name.toList := by
  obtain ⟨n,member,rfl⟩ := nameOfNode found
  exact legible n member

theorem tallyHushed (legible : g.Legible) {namespaces : NamespaceTable} {full : Bool} {outer : SelectPattern}
    {closures : CountClosures} {id : String} {members : List String} {sub : SelectPattern} {t : Tally}
    (tally : TallySource g namespaces full outer closures id members sub t) :
    (∀ text ∈ t.comment, IsIdle text.toList) ∧
      ∀ line ∈ t.body, line.isSolid = false → IsIdle (line.text namespaces) := by
  constructor
  · intro text there
    rw [tally.comment] at there
    obtain ⟨name,found,rfl⟩ := Option.map_eq_some_iff.mp there
    obtain ⟨parent,_,named⟩ := Option.bind_eq_some_iff.mp found
    refine transitionIdle (nameLegible legible named) ?_ _
    cases own : g.nameOf id with
    | none => exact oneLinePlain (by simp) (by simp)
    | some name => exact nameLegible legible own
  · intro line member quiet
    rw [tally.body] at member
    obtain ⟨source,there,rfl⟩ := List.mem_map.mp (withoutCommentsSubset member)
    rw [solidRename] at quiet
    have part := legibleCentral (legibleRestrict legible (members ++ (closures.parents.find? id).toList)) id
    have idle := patternIdle part (Pattern.unmarkedSourced (patternSourced tally.made)) namespaces _ source
      there quiet
    cases source with
    | triple depth t => contradiction
    | _ => exact idle

theorem blockHushed (legible : g.Legible) {outer : SelectPattern} {closures : CountClosures}
    {namespaces : NamespaceTable} {zero full : Bool} {counts : Counts}
    (counted : Counts.ofGraph g outer closures namespaces zero full = .ok counts) :
    ∀ b ∈ counts.blocks, b.Hushed namespaces := by
  intro b member
  obtain ⟨entry,_,sub,t,tally,source⟩ := blockSource counted member
  obtain ⟨comment,body⟩ := tallyHushed legible tally
  exact ⟨source.comment ▸ comment,source.body ▸ body⟩

theorem indentedIdle {margin line : List Char} (spaces : ∀ c ∈ margin, c = ' ') (idle : IsIdle line) :
    IsIdle (indented margin line) := by
  unfold indented
  split
  · exact idleBlank
  · exact idleMargin spaces idle

theorem quieterBlock {namespaces : NamespaceTable} {b : CountBlock} (hushed : b.Hushed namespaces) :
    Quieter (b.lines namespaces) (b.bare.lines namespaces) := by
  have margin : ∀ c ∈ (if b.optional then "    ".toList else "  ".toList), c = ' ' := by
    split
    · exact marginPlain 4
    · exact marginPlain 2
  have comment : Quieter ((((b.comment.map (·.toList)).filter (· ≠ [])).toList.map ("  ".toList ++ ·))) [] := by
    cases given : b.comment with
    | none => exact .nil
    | some text =>
        by_cases filled : text.toList = []
        · simp [filled,Option.filter,Quieter.nil]
        · simp only [Option.map_some,Option.filter,filled,ne_eq,not_false_eq_true,decide_true,if_true,
            Option.toList_some,List.map_cons,List.map_nil]
          exact .drop (idleMargin (marginPlain 2) (hushed.comment text given)) .nil
  have body : Quieter ((b.body.map (Line.text namespaces)).map
      (indented (if b.optional then "    ".toList else "  ".toList)))
      (((b.body.filter Line.isSolid).map (Line.text namespaces)).map
        (indented (if b.optional then "    ".toList else "  ".toList))) := by
    rw [List.map_map,List.map_map]
    exact quieterFilter fun line member quiet => indentedIdle margin (hushed.body line member quiet)
  unfold CountBlock.lines blockLines
  simp only [List.append_assoc]
  exact quieterAppend comment (quieterAppend (quieterSame _)
    (quieterAppend (quieterSame _) (quieterAppend body (quieterSame _))))

theorem quieterBlocks {namespaces : NamespaceTable} {blocks : List CountBlock}
    (hushed : ∀ b ∈ blocks, b.Hushed namespaces) {lines fewer : List (List Char)} (quieter : Quieter lines fewer) :
    Quieter ((blocks.map (CountBlock.lines namespaces)).foldl addBlock lines)
      (fewer ++ (blocks.map CountBlock.bare).flatMap (CountBlock.lines namespaces)) := by
  induction blocks generalizing lines fewer with
  | nil => simpa using quieter
  | cons b rest ih =>
      have block := quieterBlock (hushed b (by simp))
      have added : Quieter (addBlock lines (b.lines namespaces)) (fewer ++ b.bare.lines namespaces) := by
        unfold addBlock
        split
        · next empty =>
          rw [List.isEmpty_iff.mp empty] at quieter
          cases quieter
          exact block
        · exact quieterAppend quieter (.drop idleBlank block)
      have later := ih (fun b member => hushed b (List.mem_cons_of_mem _ member)) added
      simpa using later

def Counts.bare (c : Counts) : Counts := { c with blocks := c.blocks.map CountBlock.bare }

namespace Pattern

def openingLines (p : Pattern) (o : QueryOptions) (counts : Counts) : List (List Char) :=
  let used := p.labels o.namespaces [] ++ counts.labels
  (o.namespaces.declarations used).map (·.toList) ++
    [[],"SELECT DISTINCT".toList] ++ selectLines (p.projections ++ counts.projections) ++ ["WHERE \x7b".toList]

def solidBody (p : Pattern) (o : QueryOptions) (counts : Counts) : List (List Char) :=
  ((p.lines []).filter Line.isSolid).map (Line.text o.namespaces) ++
    counts.blocks.flatMap (CountBlock.lines o.namespaces)

def solidQuery (p : Pattern) (o : QueryOptions) (counts : Counts) : List (List Char) :=
  p.openingLines o counts ++ (p.solidBody o counts ++ "\x7d".toList :: o.endLines)

theorem bareLabels (p : Pattern) (namespaces : NamespaceTable) (excluded : List Triple) :
    p.bare.labels namespaces excluded = p.labels namespaces excluded := by
  have scan : ∀ seen rest,
      p.bare.labelsFrom namespaces excluded seen rest = p.labelsFrom namespaces excluded seen rest := by
    intro seen rest
    fun_induction labelsFrom p namespaces excluded seen rest with
    | case1 => rfl
    | case2 seen e rest skipped ih => exact (if_pos skipped).trans ih
    | case3 seen e rest counted ih =>
      exact (if_neg counted).trans (congrArg (e.triple.labels namespaces ++ ·) ih)
  exact scan [] p.emissions

theorem openingBare (p : Pattern) (o : QueryOptions) (counts : Counts) :
    p.bare.openingLines o counts.bare = p.openingLines o counts := by
  rw [openingLines,openingLines,bareLabels]
  rfl

theorem querySolid {p : Pattern} (legible : g.Legible) (sourced : p.Sourced g) {counts : Counts}
    {o : QueryOptions} (hushed : ∀ b ∈ counts.blocks, b.Hushed o.namespaces) :
    (unescape (p.query o (counts.extras o.namespaces))).map codeOf =
        (unescape (joinLines (p.bare.solidQuery o counts.bare))).map codeOf ∧
      codeOf (p.query o (counts.extras o.namespaces)) = codeOf (joinLines (p.bare.solidQuery o counts.bare)) := by
  have body : Quieter (p.bodyLines o.namespaces)
      (((p.bare.lines []).filter Line.isSolid).map (Line.text o.namespaces)) := by
    rw [p.solidLines]
    exact quieterFilter (patternIdle legible sourced o.namespaces [])
  have quieter : Quieter ((counts.blocks.map (CountBlock.lines o.namespaces)).foldl addBlock
      (p.bodyLines o.namespaces)) (p.bare.solidBody o counts.bare) := quieterBlocks hushed body
  have filled : p.openingLines o counts ≠ [] := by simp [openingLines]
  have parts : p.queryLines o (counts.extras o.namespaces) = p.openingLines o counts ++
      ((counts.blocks.map (CountBlock.lines o.namespaces)).foldl addBlock (p.bodyLines o.namespaces) ++
        "\x7d".toList :: o.endLines) := by
    simp [queryLines,openingLines,Counts.extras]
  rw [query,parts,solidQuery,openingBare]
  constructor
  · rw [joinAppend filled (by simp),joinAppend filled (by simp),readBreak,readBreak,readQuieter quieter (by simp)]
  · rw [joinAppend filled (by simp),joinAppend filled (by simp),codeBreak,codeBreak,
      codeQuieter quieter (by simp)]

end Pattern

theorem partsHushed (legible : g.Legible) {o : QueryOptions} {parts : SelectPattern × Counts}
    (made : g.parts o = .ok parts) :
    (unescape (parts.1.toPattern.query o (parts.2.extras o.namespaces))).map codeOf =
        (unescape (joinLines (parts.1.toPattern.bare.solidQuery o parts.2.bare))).map codeOf ∧
      codeOf (parts.1.toPattern.query o (parts.2.extras o.namespaces)) =
        codeOf (joinLines (parts.1.toPattern.bare.solidQuery o parts.2.bare)) := by
  obtain ⟨pattern,counted⟩ := partsDone made
  exact Pattern.querySolid (legibleRestrict legible _) (patternSourced pattern) (blockHushed legible counted)

end PathQuery
