import HangulScript.Keyword.Rule

/-!
# The keyword table

The Korean keyword spellings and what they mean in TypeScript. All but the console idiom must
stand alone.
-/

namespace HangulScript

open Rule in
/-- The keyword table. A spelling that another one begins with stands after it. -/
def keywordTable : List Rule := [
  alone "내보내기 기본내보내기" "export default",
  alone "비동기함수" "async function",
  alone "상수" "const",
  alone "변수" "let",
  alone "함수" "function",
  alone "반환" "return",
  alone "만약" "if",
  alone "아니면" "else",
  alone "반복" "for",
  alone "동안" "while",
  alone "오브" "of",
  alone "참" "true",
  alone "거짓" "false",
  alone "비어있음" "null",
  alone "정의안됨" "undefined",
  alone "무효" "void",
  alone "가져오기" "import",
  alone "내보내기" "export",
  alone "타입" "type",
  alone "인터페이스" "interface",
  alone "구현" "implements",
  alone "확장" "extends",
  alone "클래스" "class",
  alone "생성자" "constructor",
  alone "이것" "this",
  alone "새로운" "new",
  alone "비동기" "async",
  alone "대기" "await",
  alone "시도" "try",
  alone "잡기" "catch",
  alone "던지기" "throw",
  alone "문자열" "string",
  alone "숫자" "number",
  alone "불리언" "boolean",
  alone "아무거나" "any",
  alone "배열" "Array",
  alone "레코드" "Record",
  alone "맵" "Map",
  alone "세트" "Set",
  alone "약한맵" "WeakMap",
  alone "약한세트" "WeakSet",
  alone "프로미스" "Promise",
  alone "객체" "Object",
  alone "날짜" "Date",
  alone "오류" "Error",
  alone "정규식" "RegExp",
  alone "제이슨" "JSON",
  alone "수학" "Math",
  anywhere "콘솔.출력" "console.log"
]

end HangulScript
