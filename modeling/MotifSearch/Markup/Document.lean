import MotifSearch.Text.Blank

/-!
# Pattern documents

A pattern is given as a whole MEI document or as a fragment of one. A fragment is put into the one
layer of a fixed document, just as it is written; what is a document already stays as it is.

## Main definitions

* `Markup.isDocument` — whether a text is taken for a whole document
* `Markup.wrap` — a fragment put into the fixed document
* `Markup.toDocument` — the document of a text

## Main results

* `toDocument_of_isDocument`, `toDocument_of_not_isDocument` — which of the two applies
-/

namespace MotifSearch.Markup

/-- The namespace of MEI elements. -/
def meiUri : List Char := "http://www.music-encoding.org/ns/mei".toList

/-- The namespace of groups, of choices, and of the flags that leave properties open. -/
def queryUri : List Char := "http://www.matangover.com/musicquery".toList

/-- The fixed document up to the place of the fragment. -/
def wrapperHead : List Char :=
  "<mei xmlns=\"".toList ++ meiUri ++ "\" meiversion=\"3.0.0\" xmlns:query=\"".toList ++ queryUri ++
    r#"">
    <meiHead/>
    <music>
        <body>
            <mdiv>
                <score>
                    <scoreDef>
                        <staffGrp>
                            <staffDef n="1" lines="5" clef.line="2" clef.shape="G"/>
                        </staffGrp>
                    </scoreDef>
                    <section>
                        <measure n="0">
                            <staff n="1">
                                <layer n="1">
                                    "#.toList

/-- The fixed document after the place of the fragment. -/
def wrapperTail : List Char :=
  r#"
                                </layer>
                            </staff>
                        </measure>
                    </section>
                </score>
            </mdiv>
        </body>
    </music>
</mei>
"#.toList

/-- Whether a text is taken for a whole document: whether it begins, blanks aside, as one does. -/
def isDocument (text : List Char) : Bool :=
  let trimmed := Text.trimStart text
  "<?xml".toList.isPrefixOf trimmed || "<mei".toList.isPrefixOf trimmed

/-- A fragment put into the fixed document. -/
def wrap (fragment : List Char) : List Char :=
  wrapperHead ++ fragment ++ wrapperTail

/-- The document of a text: the text itself if it is one, and otherwise the fixed document around
it. -/
def toDocument (text : List Char) : List Char :=
  if isDocument text then text else wrap text

theorem toDocument_of_isDocument {text : List Char} (h : isDocument text = true) :
    toDocument text = text := by
  simp [toDocument, h]

theorem toDocument_of_not_isDocument {text : List Char} (h : isDocument text = false) :
    toDocument text = wrap text := by
  simp [toDocument, h]

end MotifSearch.Markup
