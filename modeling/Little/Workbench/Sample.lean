import Little.Source.Newline

/-!
# Sample programs

The programs a workbench offers, and the one it starts with.
-/

namespace Little

namespace Sample

/-- The program that a workbench starts with. -/
def snippet : String :=
  endLines [
    "PROGRAM demo",
    "BEGIN",
    "  FUNCTION VOID main()",
    "  BEGIN",
    "    INT x, y;",
    "    IF (x < y)",
    "      STRING s := \"hello\";",
    "    ENDIF",
    "  END",
    "END"]

/-- Functions, `IF` with `ELSE`, and `WHILE`. -/
def demo : String :=
  endLines [
    "-- Programa de ejemplo con funciones, IF/ELSE y WHILE",
    "PROGRAM demo",
    "BEGIN",
    "  STRING greeting := \"hello\";",
    "  INT total;",
    "",
    "  FUNCTION INT add(INT a, INT b)",
    "  BEGIN",
    "    INT sum;",
    "    sum := a + b;",
    "    RETURN sum;",
    "  END",
    "",
    "  FUNCTION VOID main()",
    "  BEGIN",
    "    INT x, y;",
    "    FLOAT z;",
    "    READ(x, y);",
    "    IF (x < y)",
    "      INT t;",
    "      t := x;",
    "    ELSE",
    "      FLOAT u;",
    "      STRING msg := \"x is not smaller\";",
    "      u := 1.5;",
    "    ENDIF",
    "    WHILE (x > 0)",
    "      x := x - 1;",
    "    ENDWHILE",
    "    WRITE(x);",
    "  END",
    "END"]

/-- A name that is declared twice. -/
def duplicate : String :=
  endLines [
    "PROGRAM dup",
    "BEGIN",
    "  FUNCTION VOID main()",
    "  BEGIN",
    "    INT count;",
    "    FLOAT ratio, count;",
    "    count := 1;",
    "  END",
    "END"]

/-- A block within a block. -/
def nested : String :=
  endLines [
    "PROGRAM nested",
    "BEGIN",
    "  FUNCTION INT helper(FLOAT f)",
    "  BEGIN",
    "    IF (f > 0.5)",
    "      INT p;",
    "      WHILE (p < 10)",
    "        FLOAT q;",
    "        p := p + 1;",
    "      ENDWHILE",
    "    ENDIF",
    "    RETURN 0;",
    "  END",
    "",
    "  FUNCTION VOID main()",
    "  BEGIN",
    "    STRING s := \"hi\";",
    "    IF (s = s)",
    "      INT r;",
    "    ENDIF",
    "  END",
    "END"]

/-- The samples by name, in the order of their names. -/
def all : List (String × String) :=
  [("demo.little", demo), ("duplicate.little", duplicate), ("nested.little", nested)]

/-- The text of a sample. -/
def text? (name : String) : Option String := all.lookup name

end Sample

end Little
