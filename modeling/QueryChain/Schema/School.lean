import QueryChain.Schema.Basic

/-!
# The school

A small schema with stored and virtual relations, among them two pairs that lead back and forth.
-/

namespace QueryChain.Schema

/-- Students with their details and orders, and the sectors that they learn for. -/
def school : Schema where
  entities := .ofList [
    ("Student", {
      table := "studentTable"
      primaryKey := "ID"
      primaryKeyType := "Int32"
      columns := .ofList [("ID", "IDColumn"), ("First", "FirstColumn"), ("Last", "LastColumn")]
      relations := .ofList [
        ("Details", {
          target := "StudentDetail", foreignKey := "Student_Detail_to_Student_FK"
          isVirtual := true }),
        ("Orders", { target := "Order", foreignKey := "StudentIDColumn", isVirtual := true })] }),
    ("StudentDetail", {
      table := "detailTable"
      primaryKey := "ID"
      primaryKeyType := "Int32"
      columns := .ofList [("ID", "IDColumn"), ("Subject", "SubjectColumn")]
      relations := .ofList [
        ("Student", {
          target := "Student", foreignKey := "Student_Detail_to_Student_FK", isVirtual := false }),
        ("IndustrialSector", {
          target := "IndustrialSector", foreignKey := "Student_Detail_to_IndustrialSector_FK"
          isVirtual := false })] }),
    ("IndustrialSector", {
      table := "industrialTable"
      primaryKey := "ID"
      primaryKeyType := "Int32"
      columns := .ofList [("ID", "IDColumn"), ("Name", "NameColumn")]
      relations := .ofList [
        ("StudentDetail", {
          target := "StudentDetail", foreignKey := "Student_Detail_to_IndustrialSector_FK"
          isVirtual := true })] }),
    ("Order", {
      table := "orderTable"
      primaryKey := "ID"
      primaryKeyType := "Int32"
      columns := .ofList
        [("ID", "IDColumn"), ("StudentID", "StudentIDColumn"), ("Number", "NumberColumn")]
      relations := .ofList [
        ("Student", {
          target := "Student", foreignKey := "StudentIDColumn", isVirtual := false })] })]

end QueryChain.Schema
